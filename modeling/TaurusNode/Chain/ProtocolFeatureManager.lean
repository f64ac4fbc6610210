import Mathlib
import TaurusNode.Lib.Fallible
import TaurusNode.Lib.ParentTree
import TaurusNode.Lib.OrderedIndex

/-!
# Activation of protocol features

`protocol_feature_manager` (libraries/chain/protocol_feature_manager.cpp) records the activated
protocol features twice: in the vector `_activated_protocol_features`, in activation order, and,
the builtin features, in `_builtin_protocol_features`, indexed by codename. Each entry there holds
its activation block and the codename activated before it, so that the entries form a list from
`_head_of_builtin_activation_list`. `activate_feature` appends to both; `popped_blocks_to` unwinds
both. An unset entry has `previous = no_previous` and `activation_block_num = not_active`, the
greatest `size_t` and `uint32_t`.

The calls update the manager in place and may throw, so they are `EStateM` computations: a throw
returns the state as the writes before it left it.

* `Agrees`: the builtin list from its head visits the codenames of the vector in reverse
  activation order, each entry on it holds its activation block, every other entry is unset, and
  the activations are in order of block number, all below `not_active`.
* `activateFeature_agrees`, `poppedBlocksTo_agrees`, `init_agrees`: each call keeps `Agrees`
  when the blocks it activates at are below `not_active`, and so does every run of calls from a
  new manager (`runCalls_agrees`). A throwing `activate_feature` leaves the manager as it was
  (`activateFeature_error`), and `popped_blocks_to(b)` keeps exactly the activations at or before
  `b` (`Agrees.activated_poppedTo`).
* `builtinActivationList_eq`, `isBuiltinActivated_iff`: under `Agrees`, the walk of the list reads
  the vector backwards, and `is_builtin_activated(c, n)` for `n` below `not_active` reads it too.
* `not_active` is also a block number: `is_builtin_activated(c, not_active)` holds of every builtin
  feature, activated or not, and a feature activated at block `not_active` reads as not active, so
  it can be activated again, which makes its entry its own predecessor (`notActive_block`).

Modelled as: the protocol feature set is a list of features, each with its digest and, for a
builtin feature, its codename; an activated entry holds the feature its iterator points at.
-/

namespace Eosio.Chain

open Fallible ParentTree

/-- What `protocol_feature_manager` throws. -/
inductive ProtocolFeatureException
  | protocolFeatureException (message : String)
deriving DecidableEq, Repr

/-- A feature of the `protocol_feature_set`: its digest and, for a builtin feature, its
`builtin_protocol_feature_t`, an enumeration over `uint32_t`. -/
structure ProtocolFeature (D : Type) where
  featureDigest : D
  builtinFeature : Option UInt32
deriving DecidableEq, Repr

/-- `protocol_feature_manager::protocol_feature_entry`. -/
structure ProtocolFeatureEntry (D : Type) where
  iteratorToProtocolFeature : ProtocolFeature D
  activationBlockNum : UInt32
deriving DecidableEq, Repr

/-- The codename of an activated feature, through its iterator. -/
def ProtocolFeatureEntry.codename {D : Type} (e : ProtocolFeatureEntry D) : Option ℕ :=
  e.iteratorToProtocolFeature.builtinFeature.map UInt32.toNat

/-- `builtin_protocol_feature_entry::no_previous`, the greatest `size_t`. -/
def noPrevious : ℕ := 2 ^ 64 - 1

/-- `builtin_protocol_feature_entry::not_active`, the greatest `uint32_t`. -/
def notActive : UInt32 := 0xFFFFFFFF

/-- `protocol_feature_manager::builtin_protocol_feature_entry`, unset by default. -/
structure BuiltinProtocolFeatureEntry where
  previous : ℕ := noPrevious
  activationBlockNum : UInt32 := notActive
deriving DecidableEq, Repr

/-- The fields of `protocol_feature_manager` that activation reads and writes. -/
structure ProtocolFeatureManager (D : Type) where
  protocolFeatureSet : List (ProtocolFeature D)
  activatedProtocolFeatures : List (ProtocolFeatureEntry D)
  builtinProtocolFeatures : List BuiltinProtocolFeatureEntry
  headOfBuiltinActivationList : ℕ
  initialized : Bool
deriving DecidableEq, Repr

variable {D : Type}

/-- `protocol_feature_set::find(feature_digest)`. -/
def findFeature [DecidableEq D] (pfs : List (ProtocolFeature D)) (featureDigest : D) :
    Option (ProtocolFeature D) :=
  pfs.find? fun f => f.featureDigest = featureDigest

/-- `_recognized_builtin_protocol_features.size()`: `add_feature` grows the vector to one more than
each codename it adds. -/
def recognizedBuiltinCount (pfs : List (ProtocolFeature D)) : ℕ :=
  pfs.foldl (fun n f => match f.builtinFeature with
    | some c => max n (c.toNat + 1)
    | none => n) 0

namespace ProtocolFeatureManager

/-- `protocol_feature_manager(pfs)`: an unset builtin entry per recognized builtin codename. -/
def create (pfs : List (ProtocolFeature D)) : ProtocolFeatureManager D where
  protocolFeatureSet := pfs
  activatedProtocolFeatures := []
  builtinProtocolFeatures := List.replicate (recognizedBuiltinCount pfs) {}
  headOfBuiltinActivationList := noPrevious
  initialized := false

/-- `activate_feature(feature_digest, current_block_num)`. -/
def activateFeature [DecidableEq D] (featureDigest : D) (currentBlockNum : UInt32) :
    EStateM ProtocolFeatureException (ProtocolFeatureManager D) Unit := do
  let m ← get
  unless m.initialized do
    throw (.protocolFeatureException "protocol_feature_manager is not yet initialized")
  let some itr := findFeature m.protocolFeatureSet featureDigest
    | throw (.protocolFeatureException "unrecognized protocol feature digest: \x7bdigest\x7d")
  if let some last := m.activatedProtocolFeatures.getLast? then
    unless last.activationBlockNum ≤ currentBlockNum do
      throw (.protocolFeatureException ("last protocol feature activation block num is " ++
        "\x7blast_activation_block_num\x7d yet attempting to activate protocol feature with a " ++
        "current block num of \x7bcurrent_block_num\x7dprotocol features is " ++
        "\x7blast_activation_block_num\x7d"))
  let some codename := itr.builtinFeature
    | throw (.protocolFeatureException
        "invariant failure: encountered non-builtin protocol feature which is not yet supported")
  let indx := codename.toNat
  -- `indx < _builtin_protocol_features.size()`
  let some entry := m.builtinProtocolFeatures[indx]?
    | throw (.protocolFeatureException ("invariant failure while trying to activate feature " ++
        "with digest \x27\x7bdigest\x7d\x27: unsupported builtin_protocol_feature_t \x7bcodename\x7d"))
  unless entry.activationBlockNum = notActive do
    throw (.protocolFeatureException
      "cannot activate already activated builtin feature with digest: \x7bdigest\x7d")
  set ({ m with
    activatedProtocolFeatures := m.activatedProtocolFeatures ++
      [{ iteratorToProtocolFeature := itr, activationBlockNum := currentBlockNum }]
    builtinProtocolFeatures :=
      m.builtinProtocolFeatures.set indx
        { previous := m.headOfBuiltinActivationList, activationBlockNum := currentBlockNum }
    headOfBuiltinActivationList := indx } : ProtocolFeatureManager D)

/-- `init(db)`: activate the features the database records, in order. The scoped exit
`reset_initialized` clears the flag again when an activation throws. -/
def init [DecidableEq D] (activated : List (D × UInt32)) :
    EStateM ProtocolFeatureException (ProtocolFeatureManager D) Unit := do
  let m ← get
  if m.initialized then
    throw (.protocolFeatureException "cannot initialize protocol_feature_manager twice")
  set ({ m with initialized := true } : ProtocolFeatureManager D)
  tryCatch (activated.forM fun f => activateFeature f.1 f.2) fun e => do
    modify fun (m : ProtocolFeatureManager D) => { m with initialized := false }
    throw e

/-- The first loop of `popped_blocks_to`: unset the entries from the head of the builtin list on,
as long as they were activated after `blockNum`. The entry and the head it leaves. -/
def unwindBuiltinList (blockNum : UInt32) :
    ℕ → List BuiltinProtocolFeatureEntry → ℕ → List BuiltinProtocolFeatureEntry × ℕ
  | 0, builtin, head => (builtin, head)
  | fuel + 1, builtin, head =>
    if head = noPrevious then (builtin, head)
    else
      match builtin[head]? with
      -- the head indexes the vector
      | none => (builtin, head)
      | some e =>
        if e.activationBlockNum ≤ blockNum then (builtin, head)
        else unwindBuiltinList blockNum fuel (builtin.set head {}) e.previous

/-- `popped_blocks_to(block_num)`. The first loop follows the list, which a fuel of one more than
the number of entries bounds; the second pops the activations after `block_num` off the back of
the vector. -/
def poppedBlocksTo (blockNum : UInt32) :
    EStateM ProtocolFeatureException (ProtocolFeatureManager D) Unit := do
  let m ← get
  unless m.initialized do
    throw (.protocolFeatureException "protocol_feature_manager is not yet initialized")
  let (builtin, head) := unwindBuiltinList blockNum (m.builtinProtocolFeatures.length + 1)
    m.builtinProtocolFeatures m.headOfBuiltinActivationList
  set ({ m with
    builtinProtocolFeatures := builtin
    headOfBuiltinActivationList := head
    activatedProtocolFeatures :=
      m.activatedProtocolFeatures.rdropWhile fun e => decide (blockNum < e.activationBlockNum) } :
    ProtocolFeatureManager D)

/-- `is_builtin_activated(feature_codename, current_block_num)`. -/
def isBuiltinActivated (m : ProtocolFeatureManager D) (featureCodename currentBlockNum : UInt32) :
    Bool :=
  match m.builtinProtocolFeatures[featureCodename.toNat]? with
  -- `indx >= _builtin_protocol_features.size()`
  | none => false
  | some e => decide (e.activationBlockNum ≤ currentBlockNum)

/-! ### The two records of the activations -/

section Records

variable (m : ProtocolFeatureManager D)

/-- The codenames of the activated features, in activation order. -/
def activatedCodenames : List ℕ := m.activatedProtocolFeatures.filterMap (·.codename)

/-- The codename before `i` on the builtin list; `no_previous` has none. -/
def previousOf (builtin : List BuiltinProtocolFeatureEntry) (i : ℕ) : Option ℕ :=
  if i = noPrevious then none else (builtin[i]?).map (·.previous)

/-- The codenames on the builtin list, walked from `head` along `previous` up to `no_previous`, as
the first loop of `popped_blocks_to` walks it; the fuel bounds the walk. -/
def builtinActivationList (builtin : List BuiltinProtocolFeatureEntry) : ℕ → ℕ → List ℕ
  | 0, _ => []
  | fuel + 1, head =>
    if head = noPrevious then []
    else
      match builtin[head]? with
      | none => []
      | some e => head :: builtinActivationList builtin fuel e.previous

/-- **The two records agree.** Every activated feature is builtin, the activations are in order of
block number and below `not_active`, the builtin list from its head visits the codenames of the
vector in reverse activation order, the entry of each holds its activation block, and every other
entry is unset. -/
structure Agrees : Prop where
  builtin : ∀ e ∈ m.activatedProtocolFeatures, e.codename.isSome
  sorted : m.activatedProtocolFeatures.Pairwise fun e e' =>
    e.activationBlockNum ≤ e'.activationBlockNum
  below : ∀ e ∈ m.activatedProtocolFeatures, e.activationBlockNum < notActive
  length_lt : m.builtinProtocolFeatures.length < noPrevious
  nodup : m.activatedCodenames.Nodup
  active : ∀ e ∈ m.activatedProtocolFeatures, ∀ c, e.codename = some c →
    ∃ p, m.builtinProtocolFeatures[c]? =
      some { previous := p, activationBlockNum := e.activationBlockNum }
  inactive : ∀ i < m.builtinProtocolFeatures.length, i ∉ m.activatedCodenames →
    m.builtinProtocolFeatures[i]? = some {}
  list : Descent (previousOf m.builtinProtocolFeatures) m.headOfBuiltinActivationList
    m.activatedCodenames.reverse noPrevious

end Records

variable {m : ProtocolFeatureManager D}

theorem previousOf_eq_some {builtin : List BuiltinProtocolFeatureEntry} {i p : ℕ} :
    previousOf builtin i = some p ↔ i ≠ noPrevious ∧ ∃ e, builtin[i]? = some e ∧ e.previous = p := by
  unfold previousOf
  split_ifs with hi
  · simp [hi]
  · simp [hi]

theorem Agrees.lt_length (hm : m.Agrees) {c : ℕ} (hc : c ∈ m.activatedCodenames) :
    c < m.builtinProtocolFeatures.length := by
  obtain ⟨e, he, hec⟩ := List.mem_filterMap.mp hc
  obtain ⟨p, hp⟩ := hm.active e he c hec
  exact (List.getElem?_eq_some_iff.mp hp).1

/-- The walk with more fuel than the list is long visits the list. -/
theorem builtinActivationList_of_descent {builtin : List BuiltinProtocolFeatureEntry} {head : ℕ}
    {l : List ℕ} (h : Descent (previousOf builtin) head l noPrevious) :
    ∀ {fuel : ℕ}, l.length < fuel → builtinActivationList builtin fuel head = l := by
  -- the descent ends at `no_previous`, which the walk stops at
  suffices key : ∀ {a}, Descent (previousOf builtin) head l a → a = noPrevious →
      ∀ {fuel : ℕ}, l.length < fuel → builtinActivationList builtin fuel head = l by
    intro fuel hfuel
    exact key h rfl hfuel
  intro a hd ha
  clear h
  induction hd with
  | nil =>
    subst ha
    intro fuel hfuel
    obtain ⟨fuel, rfl⟩ : ∃ f, fuel = f + 1 := ⟨fuel - 1, by simp at hfuel; omega⟩
    simp [builtinActivationList]
  | @cons b p a l hp _ ih =>
    intro fuel hfuel
    obtain ⟨fuel, rfl⟩ : ∃ f, fuel = f + 1 := ⟨fuel - 1, by simp at hfuel; omega⟩
    obtain ⟨hb, e, he, rfl⟩ := previousOf_eq_some.mp hp
    rw [builtinActivationList, if_neg hb, he]
    simp only
    rw [ih ha (by simpa using hfuel)]

/-- **The walk of the builtin list reads the vector backwards.** -/
theorem builtinActivationList_eq (hm : m.Agrees) :
    builtinActivationList m.builtinProtocolFeatures (m.builtinProtocolFeatures.length + 1)
      m.headOfBuiltinActivationList = m.activatedCodenames.reverse := by
  refine builtinActivationList_of_descent hm.list ?_
  -- the codenames are distinct indices of the entries
  have hle : m.activatedCodenames.length ≤ m.builtinProtocolFeatures.length := by
    simpa using hm.nodup.length_le_of_subset
      (fun c hc => List.mem_range.mpr (hm.lt_length hc) : _ ⊆ List.range _)
  rw [List.length_reverse]
  omega

/-- **`is_builtin_activated` reads the vector**, at every block number below `not_active`. -/
theorem isBuiltinActivated_iff (hm : m.Agrees) (c : UInt32) {n : UInt32} (hn : n < notActive) :
    m.isBuiltinActivated c n = true ↔ ∃ e ∈ m.activatedProtocolFeatures,
      e.iteratorToProtocolFeature.builtinFeature = some c ∧ e.activationBlockNum ≤ n := by
  unfold isBuiltinActivated
  constructor
  · intro h
    split at h
    · cases h
    rename_i x hx
    have hle : x.activationBlockNum ≤ n := of_decide_eq_true h
    -- the entry is set, so the codename is activated
    have hact : c.toNat ∈ m.activatedCodenames := by
      by_contra hnot
      have hlt : c.toNat < m.builtinProtocolFeatures.length :=
        (List.getElem?_eq_some_iff.mp hx).1
      rw [hm.inactive _ hlt hnot, Option.some.injEq] at hx
      rw [← hx] at hle
      exact absurd (UInt32.lt_of_le_of_lt hle hn) (UInt32.lt_irrefl _)
    obtain ⟨e, he, hec⟩ := List.mem_filterMap.mp hact
    obtain ⟨p, hp⟩ := hm.active e he _ hec
    rw [hx, Option.some.injEq] at hp
    refine ⟨e, he, ?_, by rw [hp] at hle; exact hle⟩
    obtain ⟨c', hc', hcc'⟩ := Option.map_eq_some_iff.mp hec
    rw [hc', UInt32.toNat_inj.mp hcc']
  · rintro ⟨e, he, hc, hle⟩
    obtain ⟨p, hp⟩ := hm.active e he c.toNat (by simp [ProtocolFeatureEntry.codename, hc])
    rw [hp]
    exact decide_eq_true hle

/-! ### `activate_feature` -/

/-- The manager after `activate_feature` activates `itr`, of codename `c`, at block `n`. -/
def withActivation (m : ProtocolFeatureManager D) (itr : ProtocolFeature D) (c n : UInt32) :
    ProtocolFeatureManager D :=
  { m with
    activatedProtocolFeatures := m.activatedProtocolFeatures ++
      [{ iteratorToProtocolFeature := itr, activationBlockNum := n }]
    builtinProtocolFeatures := m.builtinProtocolFeatures.set c.toNat
      { previous := m.headOfBuiltinActivationList, activationBlockNum := n }
    headOfBuiltinActivationList := c.toNat }

/-- **A throwing `activate_feature` leaves the manager as it was**: it checks before it writes. -/
theorem activateFeature_error [DecidableEq D] {m' : ProtocolFeatureManager D} {d : D} {n : UInt32}
    {e : ProtocolFeatureException} (h : (activateFeature d n).run m = .error e m') : m' = m := by
  unfold activateFeature at h
  simp only [run_bind_get] at h
  repeat' (first | split at h | simp only [run_bind_throw, run_throw, run_set, reduceCtorEq] at h)
  all_goals
    injection h with _ h
    exact h.symm

/-- What a successful `activate_feature` checked, and what it wrote. -/
theorem activateFeature_ok [DecidableEq D] {m' : ProtocolFeatureManager D} {d : D} {n : UInt32} {u : Unit}
    (h : (activateFeature d n).run m = .ok u m') :
    ∃ itr c entry, m.initialized = true ∧ findFeature m.protocolFeatureSet d = some itr ∧
      (∀ last ∈ m.activatedProtocolFeatures.getLast?, last.activationBlockNum ≤ n) ∧
      itr.builtinFeature = some c ∧ m.builtinProtocolFeatures[c.toNat]? = some entry ∧
      entry.activationBlockNum = notActive ∧ m' = m.withActivation itr c n := by
  unfold activateFeature at h
  simp only [run_bind_get] at h
  repeat' (first | split at h | simp only [run_bind_throw, run_throw, run_set, reduceCtorEq] at h)
  all_goals
    injection h with _ h
    subst h
  -- with no activation before, and with one at a block at most `n`
  · exact ⟨_, _, _, ‹_›, ‹_›, by simp_all, ‹_›, ‹_›, ‹_›, rfl⟩
  · exact ⟨_, _, _, ‹_›, ‹_›, by simp_all, ‹_›, ‹_›, ‹_›, rfl⟩

/-- An entry set as not active is not on the list: the activations are below `not_active`. -/
theorem Agrees.not_mem_of_notActive (hm : m.Agrees) {i : ℕ} {entry : BuiltinProtocolFeatureEntry}
    (hentry : m.builtinProtocolFeatures[i]? = some entry) (hna : entry.activationBlockNum = notActive) :
    i ∉ m.activatedCodenames := by
  intro hi
  obtain ⟨e, he, hec⟩ := List.mem_filterMap.mp hi
  obtain ⟨p, hp⟩ := hm.active e he i hec
  rw [hentry, Option.some.injEq] at hp
  have hblock : e.activationBlockNum = notActive := by rw [← hna, hp]
  exact absurd (hm.below e he) (hblock ▸ UInt32.lt_irrefl _)

/-- Every activation is at most the last one. -/
theorem Agrees.le_last (hm : m.Agrees) {e last : ProtocolFeatureEntry D}
    (he : e ∈ m.activatedProtocolFeatures) (hlast : m.activatedProtocolFeatures.getLast? = some last) :
    e.activationBlockNum ≤ last.activationBlockNum := by
  have hsplit := List.dropLast_append_getLast? _ hlast
  have hsorted := hm.sorted
  rw [← hsplit] at hsorted he
  rcases List.mem_append.mp he with he | he
  · exact (List.pairwise_append.mp hsorted).2.2 e he last (List.mem_singleton_self last)
  · rw [List.mem_singleton.mp he]
    exact UInt32.le_refl _

theorem activatedCodenames_withActivation {itr : ProtocolFeature D} {c : UInt32} (n : UInt32)
    (hitr : itr.builtinFeature = some c) :
    (m.withActivation itr c n).activatedCodenames = m.activatedCodenames ++ [c.toNat] := by
  simp [activatedCodenames, withActivation, ProtocolFeatureEntry.codename, hitr]

/-- **`activate_feature` below `not_active` keeps the records in agreement**: the feature is not
on the list, since its entry is unset, and it goes on both, last. -/
theorem Agrees.withActivation (hm : m.Agrees) {itr : ProtocolFeature D} {c n : UInt32}
    {entry : BuiltinProtocolFeatureEntry} (hitr : itr.builtinFeature = some c)
    (hentry : m.builtinProtocolFeatures[c.toNat]? = some entry)
    (hna : entry.activationBlockNum = notActive)
    (hlast : ∀ last ∈ m.activatedProtocolFeatures.getLast?, last.activationBlockNum ≤ n)
    (hn : n < notActive) : (m.withActivation itr c n).Agrees := by
  have hfresh := hm.not_mem_of_notActive hentry hna
  have hlt : c.toNat < m.builtinProtocolFeatures.length := (List.getElem?_eq_some_iff.mp hentry).1
  -- the entries other than `c` stay
  have hother : ∀ i, i ≠ c.toNat →
      (m.withActivation itr c n).builtinProtocolFeatures[i]? = m.builtinProtocolFeatures[i]? :=
    fun i hi => List.getElem?_set_ne (Ne.symm hi)
  have hself : (m.withActivation itr c n).builtinProtocolFeatures[c.toNat]? =
      some { previous := m.headOfBuiltinActivationList, activationBlockNum := n } :=
    List.getElem?_set_self hlt
  have hcodes : (m.withActivation itr c n).activatedCodenames = m.activatedCodenames ++ [c.toNat] :=
    activatedCodenames_withActivation n hitr
  have hlen : (m.withActivation itr c n).builtinProtocolFeatures.length =
      m.builtinProtocolFeatures.length := List.length_set
  refine ⟨?_, ?_, ?_, ?_, ?_, ?_, ?_, ?_⟩
  · intro e he
    rcases List.mem_append.mp he with he | he
    · exact hm.builtin e he
    · rw [List.mem_singleton.mp he]
      simp [ProtocolFeatureEntry.codename, hitr]
  · refine List.pairwise_append.mpr ⟨hm.sorted, List.pairwise_singleton _ _, ?_⟩
    intro e he x hx
    rw [List.mem_singleton.mp hx]
    cases hl : m.activatedProtocolFeatures.getLast? with
    | none => simp_all
    | some last => exact UInt32.le_trans (hm.le_last he hl) (hlast last hl)
  · intro e he
    rcases List.mem_append.mp he with he | he
    · exact hm.below e he
    · rw [List.mem_singleton.mp he]
      exact hn
  · rw [hlen]
    exact hm.length_lt
  · rw [hcodes]
    refine List.nodup_append.mpr ⟨hm.nodup, List.nodup_singleton _, ?_⟩
    intro x hx y hy hxy
    rw [List.mem_singleton] at hy
    subst hy
    exact hfresh (hxy ▸ hx)
  · intro e he i hi
    rcases List.mem_append.mp he with he | he
    · have hine : i ≠ c.toNat := fun h => hfresh (h ▸ List.mem_filterMap.mpr ⟨e, he, hi⟩)
      rw [hother i hine]
      exact hm.active e he i hi
    · rw [List.mem_singleton.mp he] at hi ⊢
      have hic : i = c.toNat := by
        simpa [ProtocolFeatureEntry.codename, hitr] using hi.symm
      rw [hic, hself]
      exact ⟨_, rfl⟩
  · intro i hi hnot
    rw [hcodes, List.mem_append, not_or, List.mem_singleton] at hnot
    rw [hother i hnot.2]
    exact hm.inactive i (hlen ▸ hi) hnot.1
  · -- the new head comes first, then the old list, whose entries stay
    rw [hcodes, List.reverse_append, List.reverse_singleton, List.singleton_append]
    refine Descent.cons ?_ (hm.list.congr fun x hx => ?_)
    · show previousOf _ c.toNat = some m.headOfBuiltinActivationList
      refine previousOf_eq_some.mpr ⟨?_, _, hself, rfl⟩
      have := hm.length_lt
      omega
    · have hxc : x ≠ c.toNat := fun h => hfresh (h ▸ List.mem_reverse.mp hx)
      unfold previousOf
      rw [hother x hxc]

/-- Every `activate_feature` below `not_active` keeps the records in agreement, whether it returns
or throws. -/
theorem activateFeature_agrees [DecidableEq D] (hm : m.Agrees) (d : D) {n : UInt32} (hn : n < notActive) :
    (stateOf ((activateFeature d n).run m)).Agrees := by
  cases h : (activateFeature d n).run m with
  | ok u m' =>
    obtain ⟨itr, c, entry, -, -, hlast, hitr, hentry, hna, rfl⟩ := activateFeature_ok h
    exact hm.withActivation hitr hentry hna hlast hn
  | error e m' =>
    rw [activateFeature_error h]
    exact hm

/-! ### `popped_blocks_to` -/

/-- The builtin entries `is` unset, one after the other. -/
def unsetAll (is : List ℕ) (builtin : List BuiltinProtocolFeatureEntry) :
    List BuiltinProtocolFeatureEntry :=
  is.foldl (fun bs i => bs.set i {}) builtin

theorem unsetAll_cons (i : ℕ) (is : List ℕ) (bs : List BuiltinProtocolFeatureEntry) :
    unsetAll (i :: is) bs = unsetAll is (bs.set i {}) := rfl

theorem length_unsetAll (is : List ℕ) (bs : List BuiltinProtocolFeatureEntry) :
    (unsetAll is bs).length = bs.length := by
  induction is generalizing bs with
  | nil => rfl
  | cons i is ih => rw [unsetAll_cons, ih, List.length_set]

theorem getElem?_unsetAll_of_not_mem {is : List ℕ} {j : ℕ} (hj : j ∉ is)
    (bs : List BuiltinProtocolFeatureEntry) : (unsetAll is bs)[j]? = bs[j]? := by
  induction is generalizing bs with
  | nil => rfl
  | cons i is ih =>
    rw [List.mem_cons, not_or] at hj
    rw [unsetAll_cons, ih hj.2, List.getElem?_set_ne (Ne.symm hj.1)]

theorem getElem?_unsetAll_of_mem {is : List ℕ} {j : ℕ} (hj : j ∈ is)
    {bs : List BuiltinProtocolFeatureEntry} (hlt : j < bs.length) : (unsetAll is bs)[j]? = some {} := by
  induction is generalizing bs with
  | nil => cases hj
  | cons i is ih =>
    rw [unsetAll_cons]
    by_cases hji : j ∈ is
    · exact ih hji (by rwa [List.length_set])
    · -- the last time `j` is unset is this one
      have hij : i = j := (by simpa [hji] using hj : j = i).symm
      rw [getElem?_unsetAll_of_not_mem hji, hij, List.getElem?_set_self hlt]

/-- Whether the entry `i` holds an activation after `blockNum`. -/
def activatedAfter (blockNum : UInt32) (builtin : List BuiltinProtocolFeatureEntry) (i : ℕ) :
    Bool :=
  (builtin[i]?).any fun e => decide (blockNum < e.activationBlockNum)

/-- **The first loop of `popped_blocks_to`** unsets the entries at the front of the list activated
after the block, and leaves the head at the first entry that is not. The induction is on the list,
the loop reading the entries it has not unset yet. -/
theorem unwindBuiltinList_spec {builtin : List BuiltinProtocolFeatureEntry} {blockNum : UInt32}
    {head : ℕ} {l : List ℕ} (h : Descent (previousOf builtin) head l noPrevious) (hl : l.Nodup) :
    ∀ {fuel : ℕ} (bs : List BuiltinProtocolFeatureEntry), (∀ x ∈ l, bs[x]? = builtin[x]?) →
      l.length < fuel →
      unwindBuiltinList blockNum fuel bs head =
        (unsetAll (l.takeWhile (activatedAfter blockNum builtin)) bs,
          (l.dropWhile (activatedAfter blockNum builtin)).head?.getD noPrevious) := by
  suffices key : ∀ {a}, Descent (previousOf builtin) head l a → a = noPrevious → l.Nodup →
      ∀ {fuel : ℕ} (bs : List BuiltinProtocolFeatureEntry), (∀ x ∈ l, bs[x]? = builtin[x]?) →
      l.length < fuel →
      unwindBuiltinList blockNum fuel bs head =
        (unsetAll (l.takeWhile (activatedAfter blockNum builtin)) bs,
          (l.dropWhile (activatedAfter blockNum builtin)).head?.getD noPrevious) by
    intro fuel bs hbs hfuel
    exact key h rfl hl bs hbs hfuel
  intro a hd ha hl'
  clear h hl
  induction hd with
  | nil =>
    subst ha
    intro fuel bs _ hfuel
    obtain ⟨fuel, rfl⟩ : ∃ f, fuel = f + 1 := ⟨fuel - 1, by simp at hfuel; omega⟩
    simp [unwindBuiltinList, unsetAll]
  | @cons b p a l hp _ ih =>
    intro fuel bs hbs hfuel
    obtain ⟨fuel, rfl⟩ : ∃ f, fuel = f + 1 := ⟨fuel - 1, by simp at hfuel; omega⟩
    obtain ⟨hb, e, he, rfl⟩ := previousOf_eq_some.mp hp
    rw [List.nodup_cons] at hl'
    have hbe : bs[b]? = some e := (hbs b List.mem_cons_self).trans he
    rw [unwindBuiltinList, if_neg hb, hbe]
    simp only
    by_cases hafter : blockNum < e.activationBlockNum
    · -- activated after the block: unset it, and go on to the one before
      have hact : activatedAfter blockNum builtin b = true := by
        simp [activatedAfter, he, hafter]
      have hbs' : ∀ x ∈ l, (bs.set b {})[x]? = builtin[x]? := by
        intro x hx
        rw [List.getElem?_set_ne (fun h => hl'.1 (by rw [h]; exact hx))]
        exact hbs x (List.mem_cons_of_mem b hx)
      rw [if_neg (UInt32.not_le.mpr hafter), List.takeWhile_cons_of_pos hact,
        List.dropWhile_cons_of_pos hact, ih ha hl'.2 (bs.set b {}) hbs' (by simpa using hfuel),
        unsetAll_cons]
    · have hact : ¬ activatedAfter blockNum builtin b = true := by
        simp [activatedAfter, he, hafter]
      rw [if_pos (UInt32.not_lt.mp hafter), List.takeWhile_cons_of_neg hact,
        List.dropWhile_cons_of_neg hact]
      rfl

/-- The codenames are distinct indices of the builtin entries. -/
theorem Agrees.length_activatedCodenames_le (hm : m.Agrees) :
    m.activatedCodenames.length ≤ m.builtinProtocolFeatures.length := by
  simpa using hm.nodup.length_le_of_subset
    (fun c hc => List.mem_range.mpr (hm.lt_length hc) : _ ⊆ List.range _)

/-- The manager after `popped_blocks_to(b)`, from the list's point of view. -/
def poppedTo (m : ProtocolFeatureManager D) (b : UInt32) : ProtocolFeatureManager D :=
  { m with
    builtinProtocolFeatures := unsetAll
      (m.activatedCodenames.reverse.takeWhile (activatedAfter b m.builtinProtocolFeatures))
      m.builtinProtocolFeatures
    headOfBuiltinActivationList :=
      (m.activatedCodenames.reverse.dropWhile (activatedAfter b m.builtinProtocolFeatures)).head?.getD
        noPrevious
    activatedProtocolFeatures :=
      m.activatedProtocolFeatures.rdropWhile fun e => decide (b < e.activationBlockNum) }

/-- What `popped_blocks_to` does to an initialized manager whose records agree. -/
theorem poppedBlocksTo_run (hm : m.Agrees) (hinit : m.initialized = true) (b : UInt32) :
    (poppedBlocksTo b).run m = .ok () (m.poppedTo b) := by
  have hfuel : m.activatedCodenames.reverse.length < m.builtinProtocolFeatures.length + 1 := by
    rw [List.length_reverse]
    exact Nat.lt_succ_of_le hm.length_activatedCodenames_le
  have hunwind := @unwindBuiltinList_spec m.builtinProtocolFeatures b _ _ hm.list
    (List.nodup_reverse.mpr hm.nodup) _ m.builtinProtocolFeatures (fun _ _ => rfl) hfuel
  simp only [poppedBlocksTo, run_bind_get, hunwind, if_pos hinit, run_set]
  rfl

/-- A throwing `popped_blocks_to` leaves the manager as it was. -/
theorem poppedBlocksTo_error {m' : ProtocolFeatureManager D} {b : UInt32}
    {e : ProtocolFeatureException} (h : (poppedBlocksTo b).run m = .error e m') : m' = m := by
  unfold poppedBlocksTo at h
  simp only [run_bind_get] at h
  repeat' (first | split at h | simp only [run_bind_throw, run_set, reduceCtorEq] at h)
  injection h with _ h
  exact h.symm

/-- Reading through `filterMap` keeps a front whose tests agree. -/
theorem takeWhile_filterMap {α β : Type*} {f : α → Option β} {p : β → Bool} {q : α → Bool}
    {l : List α} (h : ∀ x ∈ l, ∃ y, f x = some y ∧ p y = q x) :
    (l.filterMap f).takeWhile p = (l.takeWhile q).filterMap f := by
  induction l with
  | nil => rfl
  | cons x l ih =>
    obtain ⟨y, hy, hpq⟩ := h x List.mem_cons_self
    have ih' := ih fun x' hx' => h x' (List.mem_cons_of_mem x hx')
    rw [List.filterMap_cons_some hy]
    by_cases hq : q x = true
    · rw [List.takeWhile_cons_of_pos (hpq ▸ hq), List.takeWhile_cons_of_pos hq,
        List.filterMap_cons_some hy, ih']
    · rw [List.takeWhile_cons_of_neg (hpq ▸ hq), List.takeWhile_cons_of_neg hq, List.filterMap_nil]

theorem dropWhile_filterMap {α β : Type*} {f : α → Option β} {p : β → Bool} {q : α → Bool}
    {l : List α} (h : ∀ x ∈ l, ∃ y, f x = some y ∧ p y = q x) :
    (l.filterMap f).dropWhile p = (l.dropWhile q).filterMap f := by
  induction l with
  | nil => rfl
  | cons x l ih =>
    obtain ⟨y, hy, hpq⟩ := h x List.mem_cons_self
    have ih' := ih fun x' hx' => h x' (List.mem_cons_of_mem x hx')
    rw [List.filterMap_cons_some hy]
    by_cases hq : q x = true
    · rw [List.dropWhile_cons_of_pos (hpq ▸ hq), List.dropWhile_cons_of_pos hq, ih']
    · rw [List.dropWhile_cons_of_neg (hpq ▸ hq), List.dropWhile_cons_of_neg hq,
        List.filterMap_cons_some hy]

/-- Under `Agrees` an entry of the list is activated after `b` when its activation is. -/
theorem Agrees.activatedAfter_codename (hm : m.Agrees) (b : UInt32) :
    ∀ x ∈ m.activatedProtocolFeatures.reverse, ∃ c, x.codename = some c ∧
      activatedAfter b m.builtinProtocolFeatures c = decide (b < x.activationBlockNum) := by
  intro x hx
  rw [List.mem_reverse] at hx
  obtain ⟨c, hc⟩ := Option.isSome_iff_exists.mp (hm.builtin x hx)
  obtain ⟨p, hp⟩ := hm.active x hx c hc
  exact ⟨c, hc, by simp [activatedAfter, hp]⟩

/-- The list after `popped_blocks_to(b)` is the list before, past the entries it unsets. -/
theorem Agrees.activatedCodenames_poppedTo (hm : m.Agrees) (b : UInt32) :
    (m.poppedTo b).activatedCodenames.reverse =
      m.activatedCodenames.reverse.dropWhile (activatedAfter b m.builtinProtocolFeatures) := by
  have hrev : m.activatedCodenames.reverse =
      m.activatedProtocolFeatures.reverse.filterMap (·.codename) := by
    rw [activatedCodenames, List.filterMap_reverse]
  rw [hrev, dropWhile_filterMap (hm.activatedAfter_codename b)]
  show ((m.activatedProtocolFeatures.reverse.dropWhile _).reverse.filterMap _).reverse = _
  rw [List.filterMap_reverse, List.reverse_reverse]

/-- **`popped_blocks_to` keeps the records in agreement**: it unsets the entries at the front of
the list, those of the activations it pops off the back of the vector. -/
theorem Agrees.poppedTo (hm : m.Agrees) (b : UInt32) : (m.poppedTo b).Agrees := by
  set L₁ := m.activatedCodenames.reverse.takeWhile (activatedAfter b m.builtinProtocolFeatures)
  set L₂ := m.activatedCodenames.reverse.dropWhile (activatedAfter b m.builtinProtocolFeatures)
  have hsplit : L₁ ++ L₂ = m.activatedCodenames.reverse := List.takeWhile_append_dropWhile
  have hnodup : (L₁ ++ L₂).Nodup := hsplit ▸ (List.nodup_reverse.mpr hm.nodup)
  have hcodes : (m.poppedTo b).activatedCodenames.reverse = L₂ := hm.activatedCodenames_poppedTo b
  have hsub : (m.poppedTo b).activatedProtocolFeatures.Sublist m.activatedProtocolFeatures := by
    have := (List.dropWhile_sublist (fun e : ProtocolFeatureEntry D =>
      decide (b < e.activationBlockNum)) (l := m.activatedProtocolFeatures.reverse)).reverse
    rwa [List.reverse_reverse] at this
  -- the entries off the front of the list stay
  have hkeep : ∀ x ∉ L₁, (m.poppedTo b).builtinProtocolFeatures[x]? =
      m.builtinProtocolFeatures[x]? := fun x hx => getElem?_unsetAll_of_not_mem hx _
  have hlen : (m.poppedTo b).builtinProtocolFeatures.length = m.builtinProtocolFeatures.length :=
    length_unsetAll _ _
  have hmemL₂ : ∀ {c}, c ∈ (m.poppedTo b).activatedCodenames → c ∈ L₂ := by
    intro c hc
    rw [← hcodes]
    exact List.mem_reverse.mpr hc
  refine ⟨fun e he => hm.builtin e (hsub.subset he), hm.sorted.sublist hsub,
    fun e he => hm.below e (hsub.subset he), hlen ▸ hm.length_lt, ?_, ?_, ?_, ?_⟩
  · rw [← List.nodup_reverse, hcodes]
    exact (List.nodup_append.mp hnodup).2.1
  · intro e he c hc
    have hcL₂ : c ∈ L₂ := hmemL₂ (List.mem_filterMap.mpr ⟨e, he, hc⟩)
    have hcL₁ : c ∉ L₁ := fun h => (List.nodup_append.mp hnodup).2.2 c h c hcL₂ rfl
    rw [hkeep c hcL₁]
    exact hm.active e (hsub.subset he) c hc
  · intro i hi hnot
    by_cases hiL₁ : i ∈ L₁
    · exact getElem?_unsetAll_of_mem hiL₁ (hlen ▸ hi)
    · -- neither popped nor left: never activated
      have hnot' : i ∉ m.activatedCodenames := by
        rw [← List.mem_reverse, ← hsplit, List.mem_append, not_or]
        exact ⟨hiL₁, fun h => hnot (by rw [← List.mem_reverse, hcodes]; exact h)⟩
      rw [hkeep i hiL₁]
      exact hm.inactive i (hlen ▸ hi) hnot'
  · -- the rest of the list, from the node the front ends at
    rw [hcodes]
    obtain ⟨c, -, hc⟩ := (hsplit ▸ hm.list : Descent _ _ (L₁ ++ L₂) _).split_append
    have hhead : (m.poppedTo b).headOfBuiltinActivationList = c := hc.head?_getD
    rw [hhead]
    refine hc.congr fun x hx => ?_
    have hxL₁ : x ∉ L₁ := fun h => (List.nodup_append.mp hnodup).2.2 x h x hx rfl
    unfold previousOf
    rw [hkeep x hxL₁]

/-- **`popped_blocks_to(b)` keeps exactly the activations at or before `b`**, the vector being in
order of block number. -/
theorem Agrees.activated_poppedTo (hm : m.Agrees) (b : UInt32) :
    (m.poppedTo b).activatedProtocolFeatures =
      m.activatedProtocolFeatures.filter fun e => decide (e.activationBlockNum ≤ b) := by
  -- from the back, the activations after `b` come first
  have hrev : m.activatedProtocolFeatures.reverse.Pairwise fun x y =>
      decide (b < y.activationBlockNum) = true → decide (b < x.activationBlockNum) = true := by
    rw [List.pairwise_reverse]
    refine hm.sorted.imp fun hxy hy => ?_
    simp only [decide_eq_true_eq] at hy ⊢
    exact UInt32.lt_of_lt_of_le hy hxy
  show (m.activatedProtocolFeatures.reverse.dropWhile _).reverse = _
  rw [OrderedIndex.dropWhile_eq_filter hrev, List.filter_reverse, List.reverse_reverse]
  refine List.filter_congr fun e _ => ?_
  rw [← decide_not]
  exact decide_eq_decide.mpr UInt32.not_lt

/-- A returning `popped_blocks_to` found the manager initialized. -/
theorem poppedBlocksTo_initialized {m' : ProtocolFeatureManager D} {b : UInt32} {u : Unit}
    (h : (poppedBlocksTo b).run m = .ok u m') : m.initialized = true := by
  cases hinit : m.initialized
  · unfold poppedBlocksTo at h
    simp only [run_bind_get, hinit, Bool.false_eq_true, ↓reduceIte, run_bind_throw,
      reduceCtorEq] at h
  · rfl

/-- Every `popped_blocks_to` keeps the records in agreement, whether it returns or throws. -/
theorem poppedBlocksTo_agrees (hm : m.Agrees) (b : UInt32) :
    (stateOf ((poppedBlocksTo b).run m)).Agrees := by
  cases h : (poppedBlocksTo b).run m with
  | ok u m' =>
    rw [poppedBlocksTo_run hm (poppedBlocksTo_initialized h) b] at h
    injection h with _ h
    rw [stateOf_ok, ← h]
    exact hm.poppedTo b
  | error e m' =>
    rw [stateOf_error, poppedBlocksTo_error h]
    exact hm

/-! ### `init` and the constructor -/

/-- The flag `init` sets is no part of the records. -/
theorem Agrees.withInitialized (hm : m.Agrees) (i : Bool) :
    ({ m with initialized := i } : ProtocolFeatureManager D).Agrees :=
  ⟨hm.builtin, hm.sorted, hm.below, hm.length_lt, hm.nodup, hm.active, hm.inactive, hm.list⟩

/-- **`init` below `not_active` keeps the records in agreement**: each activation of its loop
does, and the scoped exit that clears the flag on a throw writes nothing else. -/
theorem init_agrees [DecidableEq D] (hm : m.Agrees) (activated : List (D × UInt32))
    (hn : ∀ f ∈ activated, f.2 < notActive) : (stateOf ((init activated).run m)).Agrees := by
  have hloop := stateOf_run_forM (fun m : ProtocolFeatureManager D => m.Agrees)
    (fun f hf s hs => activateFeature_agrees hs f.1 (hn f hf)) _ (hm.withInitialized true)
  unfold init
  simp only [run_bind_get]
  split
  · -- initialized already: it throws before it writes
    simpa using hm
  · simp only [run_bind_set, run_tryCatch]
    cases h : (activated.forM fun f => activateFeature f.1 f.2).run { m with initialized := true } with
    | ok u s =>
      rw [h] at hloop
      exact hloop
    | error e s =>
      rw [h] at hloop
      simp only [run_bind_modify, run_throw, stateOf_error]
      exact hloop.withInitialized false

/-- The constructor sizes the builtin entries by codenames of `uint32_t`. -/
theorem recognizedBuiltinCount_le (pfs : List (ProtocolFeature D)) :
    recognizedBuiltinCount pfs ≤ 2 ^ 32 := by
  -- the fold keeps its accumulator at most `2 ^ 32`
  suffices key : ∀ n ≤ 2 ^ 32, pfs.foldl (fun n f => match f.builtinFeature with
      | some c => max n (c.toNat + 1)
      | none => n) n ≤ 2 ^ 32 from key 0 (Nat.zero_le _)
  induction pfs with
  | nil => exact fun n hn => hn
  | cons f pfs ih =>
    intro n hn
    refine ih _ ?_
    rcases f with ⟨_, _ | c⟩
    · exact hn
    · exact max_le hn (UInt32.toNat_lt c)

/-- **A new manager's records agree**: nothing is activated and every entry is unset. -/
theorem create_agrees (pfs : List (ProtocolFeature D)) : (create pfs).Agrees := by
  have hcount := recognizedBuiltinCount_le pfs
  refine ⟨nofun, List.Pairwise.nil, nofun, ?_, List.nodup_nil, nofun, ?_, Descent.nil _⟩
  · show (List.replicate _ _).length < noPrevious
    rw [List.length_replicate, noPrevious]
    omega
  · intro i hi _
    exact List.getElem?_replicate_of_lt (by simpa [create] using hi)

end ProtocolFeatureManager

/-! ### Runs of calls -/

open ProtocolFeatureManager

/-- The calls of the controller that change the activations. -/
inductive ProtocolFeatureCall (D : Type)
  | init (activated : List (D × UInt32))
  | activateFeature (featureDigest : D) (currentBlockNum : UInt32)
  | poppedBlocksTo (blockNum : UInt32)
deriving DecidableEq, Repr

namespace ProtocolFeatureCall

/-- A call on the manager. -/
def exec [DecidableEq D] :
    ProtocolFeatureCall D → EStateM ProtocolFeatureException (ProtocolFeatureManager D) Unit
  | init activated => ProtocolFeatureManager.init activated
  | activateFeature featureDigest currentBlockNum =>
    ProtocolFeatureManager.activateFeature featureDigest currentBlockNum
  | poppedBlocksTo blockNum => ProtocolFeatureManager.poppedBlocksTo blockNum

/-- The block numbers a call activates features at. -/
def activationBlocks : ProtocolFeatureCall D → List UInt32
  | init activated => activated.map (·.2)
  | activateFeature _ currentBlockNum => [currentBlockNum]
  | poppedBlocksTo _ => []

/-- **Each call below `not_active` keeps the records in agreement**, whether it returns or
throws. -/
theorem exec_agrees [DecidableEq D] (hm : m.Agrees) (call : ProtocolFeatureCall D)
    (hcall : ∀ n ∈ call.activationBlocks, n < notActive) : (stateOf (call.exec.run m)).Agrees := by
  cases call with
  | init activated =>
    exact ProtocolFeatureManager.init_agrees hm activated
      fun f hf => hcall f.2 (List.mem_map_of_mem hf)
  | activateFeature d n => exact activateFeature_agrees hm d (hcall n (List.mem_singleton_self n))
  | poppedBlocksTo b => exact poppedBlocksTo_agrees hm b

end ProtocolFeatureCall

/-- The manager after the calls, each on the manager the one before left, whether it returned or
threw: the controller catches what a call throws and keeps the manager. -/
def runCalls [DecidableEq D] (m : ProtocolFeatureManager D) (calls : List (ProtocolFeatureCall D)) :
    ProtocolFeatureManager D :=
  calls.foldl (fun m call => stateOf (call.exec.run m)) m

/-- **Every run of calls below `not_active` keeps the records in agreement**, by induction on the
calls from the step lemma. -/
theorem runCalls_agrees [DecidableEq D] (hm : m.Agrees) (calls : List (ProtocolFeatureCall D))
    (hcalls : ∀ call ∈ calls, ∀ n ∈ call.activationBlocks, n < notActive) :
    (runCalls m calls).Agrees := by
  induction calls generalizing m with
  | nil => exact hm
  | cons call calls ih =>
    have hstep := call.exec_agrees hm (hcalls call List.mem_cons_self)
    exact ih hstep fun call' hc => hcalls call' (List.mem_cons_of_mem call hc)

/-- **The two records of the activations agree along every run** from a new manager whose calls
activate below `not_active`: the walk of the builtin list reads the vector backwards,
`is_builtin_activated(c, n)` for `n` below `not_active` reads it, `popped_blocks_to(b)` keeps
exactly the activations at or before `b` on both, and a throwing `activate_feature` changes
nothing. -/
theorem activations_agree [DecidableEq D] (pfs : List (ProtocolFeature D))
    (calls : List (ProtocolFeatureCall D))
    (hcalls : ∀ call ∈ calls, ∀ n ∈ call.activationBlocks, n < notActive) :
    let m := runCalls (create pfs) calls
    builtinActivationList m.builtinProtocolFeatures (m.builtinProtocolFeatures.length + 1)
        m.headOfBuiltinActivationList = m.activatedCodenames.reverse ∧
      (∀ c n, n < notActive → (m.isBuiltinActivated c n = true ↔
        ∃ e ∈ m.activatedProtocolFeatures,
          e.iteratorToProtocolFeature.builtinFeature = some c ∧ e.activationBlockNum ≤ n)) ∧
      (∀ b, m.initialized = true → ∃ m', (poppedBlocksTo b).run m = .ok () m' ∧
        m'.activatedProtocolFeatures =
          m.activatedProtocolFeatures.filter (fun e => decide (e.activationBlockNum ≤ b)) ∧
        builtinActivationList m'.builtinProtocolFeatures (m'.builtinProtocolFeatures.length + 1)
          m'.headOfBuiltinActivationList = m'.activatedCodenames.reverse) ∧
      (∀ d n e m', (activateFeature d n).run m = .error e m' → m' = m) := by
  intro m
  have hm : m.Agrees := runCalls_agrees (create_agrees pfs) calls hcalls
  refine ⟨builtinActivationList_eq hm, fun c n hn => isBuiltinActivated_iff hm c hn, ?_,
    fun d n e m' h => activateFeature_error h⟩
  intro b hinit
  exact ⟨m.poppedTo b, poppedBlocksTo_run hm hinit b, hm.activated_poppedTo b,
    builtinActivationList_eq (hm.poppedTo b)⟩

/-- One builtin feature, of codename 0 and digest 0. -/
def oneFeature : List (ProtocolFeature ℕ) := [{ featureDigest := 0, builtinFeature := some 0 }]

theorem activations_agree_oneFeature :
    (∀ call ∈ [ProtocolFeatureCall.init [(0, 5)]], ∀ n ∈ call.activationBlocks, n < notActive) ∧
      let m := runCalls (create oneFeature) [.init [(0, 5)]]
      builtinActivationList m.builtinProtocolFeatures (m.builtinProtocolFeatures.length + 1)
        m.headOfBuiltinActivationList = m.activatedCodenames.reverse := by
  have hcalls : ∀ call ∈ [ProtocolFeatureCall.init [(0, 5)]], ∀ n ∈ call.activationBlocks,
      n < notActive := by
    simp only [List.mem_singleton, forall_eq, ProtocolFeatureCall.activationBlocks, List.map_cons,
      List.map_nil]
    decide
  exact ⟨hcalls, (activations_agree oneFeature _ hcalls).1⟩

/-- At block `not_active` the records part: `is_builtin_activated(0, not_active)` holds with
nothing activated, and feature 0 activated at block `not_active` reads as not active, is
activated again, and is its own predecessor on the builtin list. -/
theorem notActive_block :
    (runCalls (create oneFeature) [.init []]).activatedProtocolFeatures = [] ∧
      (runCalls (create oneFeature) [.init []]).isBuiltinActivated 0 notActive = true ∧
      let m := runCalls (create oneFeature)
        [.init [], .activateFeature 0 notActive, .activateFeature 0 notActive]
      m.activatedProtocolFeatures.length = 2 ∧ previousOf m.builtinProtocolFeatures 0 = some 0 := by
  refine ⟨rfl, rfl, rfl, rfl⟩

end Eosio.Chain
