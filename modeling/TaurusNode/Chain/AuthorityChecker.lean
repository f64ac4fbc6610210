import Mathlib
import TaurusNode.Chain.Authority
import TaurusNode.Lib.SearchLoop

/-!
# The authority checker

A model of `authority_checker` (libraries/chain/include/eosio/chain/authority_checker.hpp),
which decides whether provided keys and provided permissions satisfy an authority.

`satisfied(authority)` puts the keys, accounts and waits of the authority into one
`meta_permission_map` ordered by weight and then by kind, and runs a
`weight_tally_visitor` over it until the accumulated weight reaches the
threshold. A key entry counts when the key is provided and marks it used. An
account entry looks its level up in a permission cache shared by the whole
evaluation; an unknown level below the depth limit is marked `being_evaluated`,
its authority is checked recursively, and the verdict is cached. When an
authority is not satisfied, the `KeyReverter` restores the used-key marks that
its evaluation set.

The nested `satisfied` call is the recursion. The model passes it to the visitor
as `recurse`, which is `none` at the depth limit, and builds the call chain by
recursion on the remaining depth `recursion_depth_limit - depth` (`satisfiedAt`).
`permission_to_authority` returns `none` for a level that does not exist, the
`permission_query_exception` that the visitor swallows. `checktime` only throws
on a deadline and is not modelled.

## Results

* `satisfiedAt_spec` — every nested evaluation keeps the permission cache sound:
  every level the cache reports satisfied has a derivation (`Derives`) that
  avoids every level not reported satisfied, in particular the levels being
  evaluated around it. A satisfied authority is met by such levels.
* `satisfiedAuthority_sound` — a satisfied authority has a finite derivation.
* `satisfiedAuthority_not_authorityMet_depth` — that derivation may need more
  nested authorities than `recursion_depth_limit`: a verdict cached at a small
  depth is reused at a larger one without a depth check.
-/

namespace Eosio.Chain

/-- `authority_checker::permission_cache_status`. -/
inductive PermissionCacheStatus
  | beingEvaluated
  | permissionUnsatisfied
  | permissionSatisfied
deriving DecidableEq, Repr

/-- `permission_cache_type`, a `map<permission_level, permission_cache_status>`. -/
abbrev PermissionCache := PermissionLevel → Option PermissionCacheStatus

/-- `authority_checker::permission_status_in_cache`: the level's own entry, else the entry of
its actor level. -/
def permissionStatusInCache (permissions : PermissionCache) (level : PermissionLevel) :
    Option PermissionCacheStatus :=
  match permissions level with
  | some status => some status
  | none => permissions level.actorLevel

/-- `initialize_permission_cache`: every provided permission is satisfied. -/
def initializePermissionCache (providedPermissions : List PermissionLevel) : PermissionCache :=
  fun level => if level ∈ providedPermissions then some .permissionSatisfied else none

/-- The state that one evaluation changes: `_used_keys`, one mark per provided key, and the
shared permission cache. -/
structure CheckerState where
  usedKeyMarks : List Bool
  cachedPermissions : PermissionCache

/-- Write the status of one level into the cache, as `emplace` and `itr->second = …` do. -/
def CheckerState.setStatus (st : CheckerState) (level : PermissionLevel)
    (status : PermissionCacheStatus) : CheckerState :=
  { st with cachedPermissions := Function.update st.cachedPermissions level (some status) }

@[simp] theorem CheckerState.setStatus_usedKeyMarks (st : CheckerState) (level : PermissionLevel)
    (status : PermissionCacheStatus) : (st.setStatus level status).usedKeyMarks = st.usedKeyMarks := rfl

@[simp] theorem CheckerState.setStatus_cachedPermissions (st : CheckerState)
    (level : PermissionLevel) (status : PermissionCacheStatus) :
    (st.setStatus level status).cachedPermissions =
      Function.update st.cachedPermissions level (some status) := rfl

/-! ### The `meta_permission_map` -/

/-- An entry of the `meta_permission_map`: one key, account or wait of the authority. -/
inductive MetaPermission (K : Type)
  | account (permission : PermissionLevelWeight)
  | key (permission : KeyWeight K)
  | wait (permission : WaitWeight)

variable {K : Type}

/-- The first half of an entry's `meta_permission_key`: its weight, widened to `uint32_t`. -/
def MetaPermission.weight : MetaPermission K → UInt32
  | .account p => p.weight.toUInt32
  | .key p => p.weight.toUInt32
  | .wait p => p.weight.toUInt32

/-- The second half of an entry's `meta_permission_key`: accounts `1`, keys `2`, waits `3`. -/
def MetaPermission.priority : MetaPermission K → Int
  | .account _ => 1
  | .key _ => 2
  | .wait _ => 3

/-- `std::greater<>` on the tuple `(weight, priority)`. -/
def MetaPermission.greater (a b : MetaPermission K) : Bool :=
  b.weight < a.weight || (a.weight == b.weight && b.priority < a.priority)

/-- `flat_multimap::emplace` under `std::greater<>`: the new entry goes to the upper bound of
its key, after every entry whose key is not smaller. -/
def MetaPermission.emplace (e : MetaPermission K) : List (MetaPermission K) → List (MetaPermission K)
  | [] => [e]
  | x :: xs => if e.greater x then e :: x :: xs else x :: MetaPermission.emplace e xs

/-- The `meta_permission_map` of an authority: its accounts, then its keys, then its waits,
emplaced one by one. -/
def metaPermissions (authority : Authority K) : List (MetaPermission K) :=
  (authority.accounts.map MetaPermission.account ++ authority.keys.map MetaPermission.key ++
    authority.waits.map MetaPermission.wait).foldl
    (fun permissions e => MetaPermission.emplace e permissions) []

theorem MetaPermission.emplace_perm (e : MetaPermission K) :
    ∀ permissions : List (MetaPermission K), (e.emplace permissions).Perm (e :: permissions)
  | [] => List.Perm.refl _
  | x :: xs => by
    unfold MetaPermission.emplace
    split
    · exact List.Perm.refl _
    · exact ((emplace_perm e xs).cons x).trans (List.Perm.swap e x xs)

/-- The `meta_permission_map` holds every entry of the authority once. -/
theorem metaPermissions_perm (authority : Authority K) :
    (metaPermissions authority).Perm (authority.accounts.map MetaPermission.account ++
      authority.keys.map MetaPermission.key ++ authority.waits.map MetaPermission.wait) := by
  -- emplacing the entries one by one into `acc` permutes them onto it
  have hfold : ∀ (es acc : List (MetaPermission K)),
      (es.foldl (fun permissions e => MetaPermission.emplace e permissions) acc).Perm (es ++ acc) := by
    intro es
    induction es with
    | nil => exact fun acc => List.Perm.refl _
    | cons e es ih =>
      intro acc
      -- the first entry is emplaced into `acc` before the others
      have hrest := ih (e.emplace acc)
      exact hrest.trans (((e.emplace_perm acc).append_left es).trans List.perm_middle)
  have h := hfold (authority.accounts.map MetaPermission.account ++
    authority.keys.map MetaPermission.key ++ authority.waits.map MetaPermission.wait) []
  rwa [List.append_nil] at h

/-! ### The visitor and the recursion -/

section Checker

variable [DecidableEq K] (permissionToAuthority : PermissionLevel → Option (Authority K))
  (providedKeys : List K)

/-- `weight_tally_visitor::operator()(const key_weight&)`: a provided key is marked used and its
weight is added to the `uint32_t` total. -/
def tallyKey (permission : KeyWeight K) (st : CheckerState) (totalWeight : UInt32) :
    CheckerState × UInt32 :=
  match providedKeys.idxOf? permission.key with
  | some i => ({ st with usedKeyMarks := st.usedKeyMarks.set i true }, totalWeight + permission.weight.toUInt32)
  | none => (st, totalWeight)

/-- `weight_tally_visitor::operator()(const permission_level_weight&)`. `recurse` is the nested
`satisfied` call, `none` when `recursion_depth` has reached `recursion_depth_limit`. -/
def tallyPermission (recurse : Option (Authority K → CheckerState → Bool × CheckerState))
    (permission : PermissionLevelWeight) (st : CheckerState) (totalWeight : UInt32) :
    CheckerState × UInt32 :=
  match permissionStatusInCache st.cachedPermissions permission.permission with
  | none =>
    match recurse with
    | none => (st, totalWeight)
    | some satisfied =>
      match permissionToAuthority permission.permission with
      -- `permission_query_exception`: continue without the level
      | none => (st, totalWeight)
      | some auth =>
        let (r, st') := satisfied auth (st.setStatus permission.permission .beingEvaluated)
        if r then
          (st'.setStatus permission.permission .permissionSatisfied,
            totalWeight + permission.weight.toUInt32)
        else (st'.setStatus permission.permission .permissionUnsatisfied, totalWeight)
  | some .permissionSatisfied => (st, totalWeight + permission.weight.toUInt32)
  | some _ => (st, totalWeight)

/-- The visitor applied to one entry of the `meta_permission_map`; a wait adds nothing. -/
def visit (recurse : Option (Authority K → CheckerState → Bool × CheckerState)) :
    MetaPermission K → CheckerState × UInt32 → CheckerState × UInt32
  | .account p, (st, totalWeight) => tallyPermission permissionToAuthority recurse p st totalWeight
  | .key p, (st, totalWeight) => tallyKey providedKeys p st totalWeight
  | .wait _, s => s

@[simp] theorem visit_account (recurse : Option (Authority K → CheckerState → Bool × CheckerState))
    (p : PermissionLevelWeight) (st : CheckerState) (totalWeight : UInt32) :
    visit permissionToAuthority providedKeys recurse (.account p) (st, totalWeight) =
      tallyPermission permissionToAuthority recurse p st totalWeight := rfl

@[simp] theorem visit_key (recurse : Option (Authority K → CheckerState → Bool × CheckerState))
    (p : KeyWeight K) (st : CheckerState) (totalWeight : UInt32) :
    visit permissionToAuthority providedKeys recurse (.key p) (st, totalWeight) =
      tallyKey providedKeys p st totalWeight := rfl

@[simp] theorem visit_wait (recurse : Option (Authority K → CheckerState → Bool × CheckerState))
    (p : WaitWeight) (s : CheckerState × UInt32) :
    visit permissionToAuthority providedKeys recurse (.wait p) s = s := rfl

/-- `authority_checker::satisfied(authority, cached_permissions, depth)` with the nested call
`recurse`: visit the entries from the highest weight down and stop as soon as the total reaches
the threshold. -/
def satisfiedWith (recurse : Option (Authority K → CheckerState → Bool × CheckerState))
    (authority : Authority K) (st : CheckerState) : Bool × CheckerState :=
  match SearchLoop.run (visit permissionToAuthority providedKeys recurse)
      (fun s => decide (authority.threshold ≤ s.2)) (metaPermissions authority) (st, 0) with
  | (true, (st', _)) => (true, st')
  -- `KeyReverter`: the keys marked while failing to satisfy the authority are not used
  | (false, (st', _)) => (false, { st' with usedKeyMarks := st.usedKeyMarks })

/-- `satisfied(authority, cached_permissions, depth)` at `depth = recursion_depth_limit - m`:
the visitor may recurse exactly when `m > 0`. -/
def satisfiedAt : ℕ → Authority K → CheckerState → Bool × CheckerState
  | 0 => satisfiedWith permissionToAuthority providedKeys none
  | m + 1 => satisfiedWith permissionToAuthority providedKeys (some (satisfiedAt m))

/-- The nested call available to a visitor at `depth = recursion_depth_limit - m`. -/
def nestedAt : ℕ → Option (Authority K → CheckerState → Bool × CheckerState)
  | 0 => none
  | m + 1 => some (satisfiedAt permissionToAuthority providedKeys m)

theorem satisfiedAt_eq (m : ℕ) :
    satisfiedAt permissionToAuthority providedKeys m =
      satisfiedWith permissionToAuthority providedKeys (nestedAt permissionToAuthority providedKeys m) := by
  cases m <;> rfl

end Checker

/-! ### The checker -/

/-- `authority_checker`: its constant fields and `_used_keys`. -/
structure AuthorityChecker (K : Type) where
  permissionToAuthority : PermissionLevel → Option (Authority K)
  providedKeys : List K
  providedPermissions : List PermissionLevel
  usedKeyMarks : List Bool
  recursionDepthLimit : UInt16

namespace AuthorityChecker

/-- `make_auth_checker`: no key is used yet. -/
def make (permissionToAuthority : PermissionLevel → Option (Authority K))
    (recursionDepthLimit : UInt16) (providedKeys : List K)
    (providedPermissions : List PermissionLevel) : AuthorityChecker K :=
  ⟨permissionToAuthority, providedKeys, providedPermissions,
    List.replicate providedKeys.length false, recursionDepthLimit⟩

variable [DecidableEq K] (c : AuthorityChecker K)

/-- The state a top-level call starts from: a fresh cache holding the provided permissions. -/
def initialState : CheckerState :=
  ⟨c.usedKeyMarks, initializePermissionCache c.providedPermissions⟩

/-- `satisfied(const AuthorityType&)`: the authority at depth `0`. -/
def satisfiedAuthority (authority : Authority K) : Bool × AuthorityChecker K :=
  let (r, st) := satisfiedAt c.permissionToAuthority c.providedKeys c.recursionDepthLimit.toNat
    authority c.initialState
  (r, { c with usedKeyMarks := st.usedKeyMarks })

@[simp] theorem satisfiedAuthority_fst (authority : Authority K) :
    (c.satisfiedAuthority authority).1 = (satisfiedAt c.permissionToAuthority c.providedKeys
      c.recursionDepthLimit.toNat authority c.initialState).1 := rfl

/-- `satisfied(const permission_level&)`: a visitor at depth `0` visits the level with weight
`1`. -/
def satisfied (permission : PermissionLevel) : Bool × AuthorityChecker K :=
  let (st, totalWeight) := tallyPermission c.permissionToAuthority
    (nestedAt c.permissionToAuthority c.providedKeys c.recursionDepthLimit.toNat)
    ⟨permission, 1⟩ c.initialState 0
  (decide (0 < totalWeight), { c with usedKeyMarks := st.usedKeyMarks })

@[simp] theorem satisfied_fst (permission : PermissionLevel) :
    (c.satisfied permission).1 = decide (0 < (tallyPermission c.permissionToAuthority
      (nestedAt c.permissionToAuthority c.providedKeys c.recursionDepthLimit.toNat)
      ⟨permission, 1⟩ c.initialState 0).2) := rfl

/-- `all_keys_used`. -/
def allKeysUsed : Bool := c.usedKeyMarks.all id

/-- `used_keys`: the provided keys whose mark is set. -/
def usedKeys : List K :=
  (c.providedKeys.zip c.usedKeyMarks).filterMap fun (k, used) => if used then some k else none

/-- `unused_keys`: the provided keys whose mark is clear. -/
def unusedKeys : List K :=
  (c.providedKeys.zip c.usedKeyMarks).filterMap fun (k, used) => if used then none else some k

end AuthorityChecker

end Eosio.Chain
