import Mathlib
import TaurusNode.Chain.Name

/-!
# Authorities and what it means to satisfy one

The data of `libraries/chain/include/eosio/chain/authority.hpp` and `action.hpp`:
a `permission_level` names a permission of an account, and an `authority` is a
threshold with weighted keys, weighted permission levels and weighted waits.

The second half states what a satisfied authority *should* mean, independently
of how `authority_checker` searches for it. `Derives anc d p` is a finite
derivation of the permission level `p` from the provided permissions and keys:

* a provided permission is satisfied;
* a level is satisfied when the level `⟨actor, permission_name()⟩` of its actor
  is (the fallback of `permission_status_in_cache`);
* a level is satisfied when its authority is met: provided keys it lists and
  listed levels that are satisfied in turn reach the threshold, waits weighing
  nothing.

`anc` holds the levels whose derivation this one is part of: no level is used
inside its own derivation. `d` bounds the number of nested authorities, the
quantity that `recursion_depth_limit` bounds in the checker.

## Results

* `Derives.mono` — a derivation stays one under a larger depth bound and fewer
  excluded levels.
* `Derives.provided_of_depth_zero` — a derivation that nests no authority rests
  on a provided permission of the level or of its actor.
* `Meets.exists_depth` — finitely many derivations of the listed levels combine
  into one derivation of the authority.
* `Meets.threshold_le` — the weights an authority can collect bound its threshold.
-/

namespace Eosio.Chain

/-- `permission_level`. -/
structure PermissionLevel where
  actor : Name
  permission : Name
deriving DecidableEq, Repr

/-- `{level.actor, permission_name()}`: the level that stands for the whole actor in a
permission cache. -/
def PermissionLevel.actorLevel (level : PermissionLevel) : PermissionLevel :=
  ⟨level.actor, Name.empty⟩

@[simp] theorem PermissionLevel.actorLevel_actorLevel (level : PermissionLevel) :
    level.actorLevel.actorLevel = level.actorLevel := rfl

/-- `key_weight` (and `shared_key_weight`) over an abstract key type `K`; `weight_type` is
`uint16_t`. -/
structure KeyWeight (K : Type) where
  key : K
  weight : UInt16
deriving DecidableEq, Repr

/-- `permission_level_weight`. -/
structure PermissionLevelWeight where
  permission : PermissionLevel
  weight : UInt16
deriving DecidableEq, Repr

/-- `wait_weight`. Only its weight is read by the checker, which uses it to order the entries. -/
structure WaitWeight where
  weight : UInt16
deriving DecidableEq, Repr

/-- `authority`. -/
structure Authority (K : Type) where
  threshold : UInt32
  keys : List (KeyWeight K)
  accounts : List PermissionLevelWeight
  waits : List WaitWeight
deriving Repr

/-- The total weight of some key entries, without overflow. -/
def sumKeyWeights {K : Type} (ks : List (KeyWeight K)) : ℕ :=
  (ks.map fun k => k.weight.toNat).sum

/-- The total weight of some permission level entries, without overflow. -/
def sumAccountWeights (ws : List PermissionLevelWeight) : ℕ :=
  (ws.map fun w => w.weight.toNat).sum

@[simp] theorem sumKeyWeights_nil {K : Type} : sumKeyWeights ([] : List (KeyWeight K)) = 0 := rfl

@[simp] theorem sumKeyWeights_append {K : Type} (ks ks' : List (KeyWeight K)) :
    sumKeyWeights (ks ++ ks') = sumKeyWeights ks + sumKeyWeights ks' := by
  simp [sumKeyWeights]

@[simp] theorem sumKeyWeights_singleton {K : Type} (k : KeyWeight K) :
    sumKeyWeights [k] = k.weight.toNat := by
  simp [sumKeyWeights]

@[simp] theorem sumAccountWeights_nil : sumAccountWeights [] = 0 := rfl

@[simp] theorem sumAccountWeights_singleton (w : PermissionLevelWeight) :
    sumAccountWeights [w] = w.weight.toNat := by
  simp [sumAccountWeights]

@[simp] theorem sumAccountWeights_append (ws ws' : List PermissionLevelWeight) :
    sumAccountWeights (ws ++ ws') = sumAccountWeights ws + sumAccountWeights ws' := by
  simp [sumAccountWeights]

theorem sumKeyWeights_le_of_subperm {K : Type} {ks ks' : List (KeyWeight K)} (h : ks.Subperm ks') :
    sumKeyWeights ks ≤ sumKeyWeights ks' := by
  obtain ⟨l, hperm, hsub⟩ := h
  unfold sumKeyWeights
  rw [← (hperm.map _).sum_eq]
  exact (hsub.map _).sum_le_sum (fun _ _ => Nat.zero_le _)

theorem sumAccountWeights_le_of_subperm {ws ws' : List PermissionLevelWeight} (h : ws.Subperm ws') :
    sumAccountWeights ws ≤ sumAccountWeights ws' := by
  obtain ⟨l, hperm, hsub⟩ := h
  unfold sumAccountWeights
  rw [← (hperm.map _).sum_eq]
  exact (hsub.map _).sum_le_sum (fun _ _ => Nat.zero_le _)

/-! ### Derivations -/

section Derivation

variable {K : Type} (permissionToAuthority : PermissionLevel → Option (Authority K))
  (providedKeys : List K) (providedPermissions : List PermissionLevel)

/-- The threshold of `a` is reached by provided keys that `a` lists and by listed levels
satisfying `ok`. Each entry counts at most once; waits count for nothing. -/
def Meets (ok : PermissionLevel → Prop) (a : Authority K) : Prop :=
  ∃ ks ws, ks.Subperm a.keys ∧ (∀ k ∈ ks, k.key ∈ providedKeys) ∧ ws.Subperm a.accounts ∧
    (∀ w ∈ ws, ok w.permission) ∧ a.threshold.toNat ≤ sumKeyWeights ks + sumAccountWeights ws

/-- A derivation of the permission level `p` that uses no level of `anc` and nests at most
`d` authorities. `permissionToAuthority p = none` is a level that does not exist. -/
inductive Derives : List PermissionLevel → ℕ → PermissionLevel → Prop
  | provided {anc d p} : p ∈ providedPermissions → p ∉ anc → Derives anc d p
  | actorLevel {anc d p} : p ∉ anc → Derives (p :: anc) d p.actorLevel → Derives anc d p
  | authority {anc d p} {a : Authority K} (ks : List (KeyWeight K))
      (ws : List PermissionLevelWeight) :
      p ∉ anc → permissionToAuthority p = some a →
      ks.Subperm a.keys → (∀ k ∈ ks, k.key ∈ providedKeys) → ws.Subperm a.accounts →
      (∀ w ∈ ws, Derives (p :: anc) d w.permission) →
      a.threshold.toNat ≤ sumKeyWeights ks + sumAccountWeights ws → Derives anc (d + 1) p

/-- The authority `a` is met by derivations that avoid `anc` and nest at most `d` authorities. -/
def AuthorityMet (anc : List PermissionLevel) (d : ℕ) (a : Authority K) : Prop :=
  Meets providedKeys (Derives permissionToAuthority providedKeys providedPermissions anc d) a

variable {permissionToAuthority providedKeys providedPermissions}

theorem Meets.mono {ok ok' : PermissionLevel → Prop} {a : Authority K}
    (h : ∀ p, ok p → ok' p) : Meets providedKeys ok a → Meets providedKeys ok' a := by
  rintro ⟨ks, ws, hks, hkp, hws, hok, hthr⟩
  exact ⟨ks, ws, hks, hkp, hws, fun w hw => h _ (hok w hw), hthr⟩

/-- The authority of a level that is met one level down derives the level. -/
theorem Derives.of_authorityMet {anc : List PermissionLevel} {d : ℕ} {p : PermissionLevel}
    {a : Authority K} (hp : p ∉ anc) (ha : permissionToAuthority p = some a)
    (hmet : AuthorityMet permissionToAuthority providedKeys providedPermissions (p :: anc) d a) :
    Derives permissionToAuthority providedKeys providedPermissions anc (d + 1) p := by
  obtain ⟨ks, ws, hks, hkp, hws, hder, hthr⟩ := hmet
  exact .authority ks ws hp ha hks hkp hws hder hthr

theorem Derives.not_mem {anc : List PermissionLevel} {d : ℕ} {p : PermissionLevel}
    (h : Derives permissionToAuthority providedKeys providedPermissions anc d p) : p ∉ anc := by
  cases h with
  | provided _ hp => exact hp
  | actorLevel hp _ => exact hp
  | authority _ _ hp => exact hp

/-- A derivation stays one under a larger depth bound and a smaller set of excluded levels. -/
theorem Derives.mono {anc : List PermissionLevel} {d : ℕ} {p : PermissionLevel}
    (h : Derives permissionToAuthority providedKeys providedPermissions anc d p) :
    ∀ {anc' : List PermissionLevel} {d' : ℕ}, (∀ q ∈ anc', q ∈ anc) → d ≤ d' →
      Derives permissionToAuthority providedKeys providedPermissions anc' d' p := by
  induction h with
  | provided hmem hp =>
    intro anc' d' hanc _
    exact .provided hmem (fun h => hp (hanc _ h))
  | actorLevel hp _ ih =>
    intro anc' d' hanc hd
    refine .actorLevel (fun h => hp (hanc _ h)) (ih ?_ hd)
    -- the excluded levels grow by the same level on both sides
    intro q hq
    rcases List.mem_cons.mp hq with rfl | hq
    · exact List.mem_cons_self
    · exact List.mem_cons_of_mem _ (hanc q hq)
  | authority ks ws hp ha hks hkp hws _ hthr ih =>
    intro anc' d' hanc hd
    obtain ⟨d'', rfl⟩ : ∃ d'', d' = d'' + 1 := ⟨d' - 1, by omega⟩
    refine .authority ks ws (fun h => hp (hanc _ h)) ha hks hkp hws ?_ hthr
    intro w hw
    refine ih w hw ?_ (by omega)
    intro q hq
    rcases List.mem_cons.mp hq with rfl | hq
    · exact List.mem_cons_self
    · exact List.mem_cons_of_mem _ (hanc q hq)

/-- A derivation that nests no authority rests on a provided permission: the level's own,
or its actor's. -/
theorem Derives.provided_of_depth_zero {anc : List PermissionLevel} {d : ℕ} {p : PermissionLevel}
    (h : Derives permissionToAuthority providedKeys providedPermissions anc d p) (hd : d = 0) :
    p ∈ providedPermissions ∨ p.actorLevel ∈ providedPermissions := by
  induction h with
  | provided hmem _ => exact Or.inl hmem
  | actorLevel _ _ ih =>
    -- the actor level of the actor level is the actor level itself
    rcases ih hd with h | h
    · exact Or.inr h
    · exact Or.inr (by simpa using h)
  | authority => omega

/-- Finitely many derivations of the listed levels, each with its own depth bound, combine
into one derivation of the authority. -/
theorem Meets.exists_depth {anc : List PermissionLevel} {a : Authority K}
    (h : Meets providedKeys
      (fun p => ∃ d, Derives permissionToAuthority providedKeys providedPermissions anc d p) a) :
    ∃ d, AuthorityMet permissionToAuthority providedKeys providedPermissions anc d a := by
  obtain ⟨ks, ws, hks, hkp, hws, hder, hthr⟩ := h
  -- one depth bound for all listed levels, by induction on the list
  have hbound : ∀ ws' : List PermissionLevelWeight,
      (∀ w ∈ ws', ∃ d, Derives permissionToAuthority providedKeys providedPermissions anc d
        w.permission) →
      ∃ d, ∀ w ∈ ws', Derives permissionToAuthority providedKeys providedPermissions anc d
        w.permission := by
    intro ws'
    induction ws' with
    | nil => exact fun _ => ⟨0, by simp⟩
    | cons w ws' ih =>
      intro hall
      obtain ⟨d₁, h₁⟩ := hall w List.mem_cons_self
      obtain ⟨d₂, h₂⟩ := ih (fun w' hw' => hall w' (List.mem_cons_of_mem _ hw'))
      refine ⟨max d₁ d₂, ?_⟩
      intro w' hw'
      rcases List.mem_cons.mp hw' with rfl | hw'
      · exact h₁.mono (fun _ hq => hq) (le_max_left _ _)
      · exact (h₂ w' hw').mono (fun _ hq => hq) (le_max_right _ _)
  obtain ⟨d, hd⟩ := hbound ws hder
  exact ⟨d, ks, ws, hks, hkp, hws, hd, hthr⟩

/-- The threshold of a met authority is at most the weight of all provided keys it lists and
of all listed levels that `q` does not rule out. -/
theorem Meets.threshold_le {ok : PermissionLevel → Prop} {a : Authority K}
    (q : PermissionLevelWeight → Bool) (hq : ∀ w ∈ a.accounts, ok w.permission → q w = true)
    [DecidableEq K] (h : Meets providedKeys ok a) :
    a.threshold.toNat ≤ sumKeyWeights (a.keys.filter fun k => k.key ∈ providedKeys) +
      sumAccountWeights (a.accounts.filter q) := by
  obtain ⟨ks, ws, hks, hkp, hws, hok, hthr⟩ := h
  -- the chosen entries survive the filters, so their weights are bounded by the filtered ones
  have hks' : ks.Subperm (a.keys.filter fun k => k.key ∈ providedKeys) := by
    have := hks.filter (fun k => decide (k.key ∈ providedKeys))
    rwa [List.filter_eq_self.mpr (fun k hk => by simpa using hkp k hk)] at this
  have hws' : ws.Subperm (a.accounts.filter q) := by
    have := hws.filter q
    rwa [List.filter_eq_self.mpr (fun w hw => hq w (hws.subset hw) (hok w hw))] at this
  calc a.threshold.toNat ≤ sumKeyWeights ks + sumAccountWeights ws := hthr
    _ ≤ _ := Nat.add_le_add (sumKeyWeights_le_of_subperm hks')
      (sumAccountWeights_le_of_subperm hws')

end Derivation

end Eosio.Chain
