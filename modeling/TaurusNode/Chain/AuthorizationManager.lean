import Mathlib
import TaurusNode.Chain.AuthoritySoundness

/-!
# Checking the authorizations of a transaction

`authorization_manager::check_authorization` and
`authorization_manager::get_required_keys` (libraries/chain/authorization_manager.cpp)
run one `authority_checker` over the declared authorizations of a transaction's
actions. Each declared authorization is checked by `satisfied(permission_level)`,
with a fresh permission cache, and the used-key marks accumulate across them.
`get_required_keys` returns the used keys; `check_authorization` then also
rejects keys that were never used, unless `allow_unused_keys`.

Before that, `check_authorization` checks that every action declares a relevant
authority (`check_updateauth_authorization` and the other native-action checks,
`lookup_minimum_permission`, `permission_object::satisfies`). Those checks read
permission links and the permission tree of the chain state, and never look at
keys: the model takes their verdict on each action as the parameter `relevance`.

## Results

* `checkAuthorization_sound` — an accepted transaction has a derivation of
  every declared authorization that it does not list as already satisfied.
* `getRequiredKeys_not_sufficient` — the keys `get_required_keys` reports may
  not satisfy the transaction. A sub-permission satisfied inside a branch that
  then fails keeps its cached verdict, while the `KeyReverter` takes back the
  key marks of the branch; a later sibling counts the cached verdict without
  marking its keys again.
-/

namespace Eosio.Chain

/-- The fields of `action` that authorization reads. -/
structure Action where
  account : Name
  name : Name
  authorization : List PermissionLevel
deriving DecidableEq, Repr

/-- `transaction`: its actions. Context-free actions declare no authorization. -/
structure Transaction where
  actions : List Action
deriving DecidableEq, Repr

/-- The exceptions that `check_authorization` and `get_required_keys` throw. -/
inductive AuthorizationError
  /-- `irrelevant_auth_exception`, or another exception of the relevance checks. -/
  | irrelevantAuth
  /-- `unsatisfied_authorization` for the declared authorization. -/
  | unsatisfiedAuthorization (auth : PermissionLevel)
  /-- `tx_irrelevant_sig`. -/
  | txIrrelevantSig
deriving DecidableEq, Repr

variable {K : Type} [DecidableEq K]

/-- The loop `EOS_ASSERT( checker.satisfied( p ), unsatisfied_authorization, … )` over the
levels `ps`, threading the checker's used-key marks. -/
def satisfyEach (checker : AuthorityChecker K) :
    List PermissionLevel → Except AuthorizationError (AuthorityChecker K)
  | [] => .ok checker
  | p :: ps =>
    match checker.satisfied p with
    | (true, checker') => satisfyEach checker' ps
    | (false, _) => .error (.unsatisfiedAuthorization p)

/-- `authorization_manager::get_required_keys`: the used keys of a checker over the candidate
keys and no provided permissions, once every declared authorization is satisfied. -/
def getRequiredKeys (permissionToAuthority : PermissionLevel → Option (Authority K))
    (maxAuthorityDepth : UInt16) (trx : Transaction) (candidateKeys : List K) :
    Except AuthorizationError (List K) := do
  let checker ← satisfyEach (AuthorityChecker.make permissionToAuthority maxAuthorityDepth
    candidateKeys []) (trx.actions.flatMap Action.authorization)
  return checker.usedKeys

/-- `authorization_manager::check_authorization(actions, provided_keys, provided_permissions,
checktime, allow_unused_keys, satisfied_authorizations)`. -/
def checkAuthorization (permissionToAuthority : PermissionLevel → Option (Authority K))
    (maxAuthorityDepth : UInt16) (relevance : Action → Except AuthorizationError Unit)
    (actions : List Action) (providedKeys : List K) (providedPermissions : List PermissionLevel)
    (allowUnusedKeys : Bool) (satisfiedAuthorizations : List PermissionLevel) :
    Except AuthorizationError Unit := do
  -- every action declares relevant authorities; collect those still to satisfy
  for act in actions do
    relevance act
  let permissionsToSatisfy := (actions.flatMap Action.authorization).filter
    (fun declaredAuth => declaredAuth ∉ satisfiedAuthorizations)
  let checker ← satisfyEach (AuthorityChecker.make permissionToAuthority maxAuthorityDepth
    providedKeys providedPermissions) permissionsToSatisfy
  if !allowUnusedKeys && !checker.allKeysUsed then
    throw .txIrrelevantSig

/-! ### Soundness -/

/-- `satisfyEach` keeps what the checker was built with; only the used-key marks change. -/
theorem satisfyEach_fields {checker checker' : AuthorityChecker K} :
    ∀ {ps : List PermissionLevel}, satisfyEach checker ps = .ok checker' →
      checker'.permissionToAuthority = checker.permissionToAuthority ∧
      checker'.providedKeys = checker.providedKeys ∧
      checker'.providedPermissions = checker.providedPermissions
  | [], h => by
    cases h
    exact ⟨rfl, rfl, rfl⟩
  | p :: ps, h => by
    unfold satisfyEach at h
    split at h
    · rename_i checker'' hsat
      -- `satisfied` only writes the used-key marks
      have hfields := satisfyEach_fields h
      have hc : checker'' = { checker with usedKeyMarks := checker''.usedKeyMarks } := by
        rw [← (Prod.mk.inj hsat).2]
      rw [hc] at hfields
      exact hfields
    · cases h

/-- Every level that `satisfyEach` gets through has a derivation. -/
theorem satisfyEach_sound {checker checker' : AuthorityChecker K} :
    ∀ {ps : List PermissionLevel}, satisfyEach checker ps = .ok checker' →
      ∀ p ∈ ps, ∃ d, Derives checker.permissionToAuthority checker.providedKeys
        checker.providedPermissions [] d p
  | [], _ => by simp
  | p :: ps, h => by
    unfold satisfyEach at h
    split at h
    · rename_i checker'' hsat
      have hfst : (checker.satisfied p).1 = true := by rw [hsat]
      have hc : checker'' = { checker with usedKeyMarks := checker''.usedKeyMarks } := by
        rw [← (Prod.mk.inj hsat).2]
      intro q hq
      rcases List.mem_cons.mp hq with rfl | hq
      · exact satisfied_sound checker q hfst
      · -- the rest of the loop runs a checker with the same fields
        have := satisfyEach_sound h q hq
        rw [hc] at this
        exact this
    · cases h

/-- **Soundness of `check_authorization`.** If it accepts, every declared authorization that is
not listed as already satisfied has a derivation from the provided keys and permissions. -/
theorem checkAuthorization_sound (permissionToAuthority : PermissionLevel → Option (Authority K))
    (maxAuthorityDepth : UInt16) (relevance : Action → Except AuthorizationError Unit)
    (actions : List Action) (providedKeys : List K) (providedPermissions : List PermissionLevel)
    (allowUnusedKeys : Bool) (satisfiedAuthorizations : List PermissionLevel)
    (h : checkAuthorization permissionToAuthority maxAuthorityDepth relevance actions providedKeys
      providedPermissions allowUnusedKeys satisfiedAuthorizations = .ok ()) :
    ∀ act ∈ actions, ∀ auth ∈ act.authorization, auth ∉ satisfiedAuthorizations →
      ∃ d, Derives permissionToAuthority providedKeys providedPermissions [] d auth := by
  intro act hact auth hauth hnot
  unfold checkAuthorization at h
  -- past the relevance checks, the satisfaction loop must have succeeded
  cases hrel : (forIn actions PUnit.unit fun act _ => do
      relevance act
      pure (ForInStep.yield PUnit.unit) : Except AuthorizationError PUnit) with
  | error e =>
    rw [hrel] at h
    cases h
  | ok u =>
    rw [hrel] at h
    cases hsat : satisfyEach (AuthorityChecker.make permissionToAuthority maxAuthorityDepth
        providedKeys providedPermissions) ((actions.flatMap Action.authorization).filter
          (fun declaredAuth => declaredAuth ∉ satisfiedAuthorizations)) with
    | error e =>
      simp only [hsat] at h
      cases h
    | ok checker =>
      have hmem : auth ∈ (actions.flatMap Action.authorization).filter
          (fun declaredAuth => declaredAuth ∉ satisfiedAuthorizations) := by
        simp only [List.mem_filter, List.mem_flatMap, decide_eq_true_eq]
        exact ⟨⟨act, hact, hauth⟩, hnot⟩
      exact satisfyEach_sound hsat auth hmem

/-! ### The reported keys are not always sufficient -/

/-- The level `⟨n, active⟩`, with `active` standing for `config::active_name`. -/
def activeLevelOf (n : UInt64) : PermissionLevel := ⟨⟨n⟩, ⟨0x3232eda800000000⟩⟩

/-- `X = {1; Y 2, Z 1}`, `Y = {2; Q 1}`, `Z = {1; Q 1}`, `Q = {1; key 7}`. -/
def revertedKeyGraph (p : PermissionLevel) : Option (Authority ℕ) :=
  if p = activeLevelOf 1 then some ⟨1, [], [⟨activeLevelOf 2, 2⟩, ⟨activeLevelOf 3, 1⟩], []⟩
  else if p = activeLevelOf 2 then some ⟨2, [], [⟨activeLevelOf 4, 1⟩], []⟩
  else if p = activeLevelOf 3 then some ⟨1, [], [⟨activeLevelOf 4, 1⟩], []⟩
  else if p = activeLevelOf 4 then some ⟨1, [⟨7, 1⟩], [], []⟩
  else none

/-- A transaction with one action that declares `X`. -/
def revertedKeyTransaction : Transaction :=
  ⟨[⟨⟨1⟩, ⟨1⟩, [activeLevelOf 1]⟩]⟩

/-- With the key `7`, `X` is satisfied: `Y` fails but leaves `Q` cached satisfied, and `Z` counts
the cached `Q`. The `KeyReverter` of `Y` has cleared the mark of `7`, so no key is reported used,
and without keys `X` is not satisfied: `get_required_keys` returns the empty set, and
`check_authorization` with it throws `unsatisfied_authorization`, whatever the relevance
checks, as long as they pass. -/
theorem getRequiredKeys_not_sufficient :
    ((AuthorityChecker.make revertedKeyGraph 4 [7] []).satisfied (activeLevelOf 1)).1 = true ∧
    ((AuthorityChecker.make revertedKeyGraph 4 [7] []).satisfied (activeLevelOf 1)).2.usedKeys = [] ∧
    ((AuthorityChecker.make revertedKeyGraph 4 [] []).satisfied (activeLevelOf 1)).1 = false ∧
    getRequiredKeys revertedKeyGraph 4 revertedKeyTransaction [7] = .ok [] ∧
    checkAuthorization revertedKeyGraph 4 (fun _ => .ok ()) revertedKeyTransaction.actions [] []
      false [] = .error (.unsatisfiedAuthorization (activeLevelOf 1)) := by
  refine ⟨by decide, by decide, by decide, by decide, by decide⟩

end Eosio.Chain
