import Mathlib
import TaurusNode.Chain.AuthorityChecker

/-!
# Soundness of the authority checker

`authority_checker` never accepts an authority that provided keys and provided
permissions do not derive (`satisfiedAuthority_sound`, and `satisfied_sound`
for a permission level), even though it shares one permission cache across
the whole evaluation, cuts cycles by the `being_evaluated` mark, and falls back
to the actor level of a level.

The proof is an invariant of the cache, `CacheSound`: every level the cache
reports satisfied (`SatisfiedIn`, through its own entry or its actor level's)
is `Good`, that is, it has a derivation avoiding any list of levels the cache
does not report satisfied. The levels being evaluated around the current one
are marked `being_evaluated` and so are never reported satisfied: a cached
verdict therefore has a derivation that avoids them, which is what lets the
derivation of an enclosing level use it without using any level inside its
own derivation.

The invariant survives each write to the cache:

* marking an unknown level `being_evaluated`, or writing
  `permission_unsatisfied` over that mark, reports no new level satisfied
  (`CacheSound.update`);
* writing `permission_satisfied` over the mark reports the level itself and
  the levels that fall back to it satisfied; the nested call has met the
  level's authority with `Good` levels, and those derive all of them
  (`CacheSound.update_satisfied`).

Writes only ever replace a `being_evaluated` mark, so a later cache keeps the
entries and the satisfied levels of an earlier one (`CacheExtends`), and
`Good` is monotone along it.

`satisfiedAt_spec` carries the invariant through the recursion on the
remaining depth. Inside one authority, `tallyInv_visit` is the step of the
`meta_permission_map` loop: one visited entry adds at most its own weight,
and only as a provided key or a `Good` level. The `uint32_t` total may wrap,
which only makes it smaller.

Two facts about `_used_keys` and the provided factors close the module. An authority or a level
that is not satisfied leaves `used_keys()` as it was (`satisfiedAuthority_snd_of_false`,
`satisfied_snd_of_false`): the `KeyReverter` of every failed evaluation restores the marks. But
satisfaction is not monotone in the provided keys or permissions
(`satisfiedAuthority_not_monotone`): a provided factor that meets an authority early spares the
evaluation of a level that the same shared cache would otherwise hold, and a deeper visitor
needing that level then meets the depth limit.
-/

namespace Eosio.Chain

variable {K : Type}

/-! ### Satisfied levels and cache writes -/

/-- The cache reports `level` satisfied, by its own entry or by its actor level's. -/
def SatisfiedIn (C : PermissionCache) (level : PermissionLevel) : Prop :=
  permissionStatusInCache C level = some .permissionSatisfied

theorem permissionStatusInCache_of_some {C : PermissionCache} {level : PermissionLevel}
    {status : PermissionCacheStatus} (h : C level = some status) :
    permissionStatusInCache C level = some status := by
  rw [permissionStatusInCache, h]

theorem permissionStatusInCache_of_none {C : PermissionCache} {level : PermissionLevel}
    (h : C level = none) : permissionStatusInCache C level = C level.actorLevel := by
  rw [permissionStatusInCache, h]

theorem not_satisfiedIn_of_beingEvaluated {C : PermissionCache} {level : PermissionLevel}
    (h : C level = some .beingEvaluated) : ¬ SatisfiedIn C level := by
  rw [SatisfiedIn, permissionStatusInCache_of_some h]
  simp

theorem not_satisfiedIn_of_status_none {C : PermissionCache} {level : PermissionLevel}
    (h : permissionStatusInCache C level = none) : ¬ SatisfiedIn C level := by
  rw [SatisfiedIn, h]
  simp

theorem eq_none_of_status_none {C : PermissionCache} {level : PermissionLevel}
    (h : permissionStatusInCache C level = none) : C level = none := by
  cases hC : C level with
  | none => rfl
  | some status => rw [permissionStatusInCache_of_some hC] at h; cases h

/-- A write at a level the cache does not report satisfied keeps every satisfied level. -/
theorem SatisfiedIn.update {C : PermissionCache} {p q : PermissionLevel}
    (v : Option PermissionCacheStatus) (hp : ¬ SatisfiedIn C p) (hq : SatisfiedIn C q) :
    SatisfiedIn (Function.update C p v) q := by
  by_cases hqp : q = p
  · subst hqp
    exact absurd hq hp
  cases hC : C q with
  | some status =>
    rw [SatisfiedIn, permissionStatusInCache_of_some hC] at hq
    rw [SatisfiedIn, permissionStatusInCache_of_some (by rw [Function.update_of_ne hqp, hC]), hq]
  | none =>
    rw [SatisfiedIn, permissionStatusInCache_of_none hC] at hq
    -- the actor level is satisfied, so it is not the level written
    have hap : q.actorLevel ≠ p := by
      rintro rfl
      exact hp (permissionStatusInCache_of_some hq)
    rw [SatisfiedIn, permissionStatusInCache_of_none (by rw [Function.update_of_ne hqp, hC]),
      Function.update_of_ne hap, hq]

/-- A write of any status but `permission_satisfied` reports no new level satisfied. -/
theorem SatisfiedIn.of_update {C : PermissionCache} {p q : PermissionLevel}
    {status : PermissionCacheStatus} (hs : status ≠ .permissionSatisfied)
    (h : SatisfiedIn (Function.update C p (some status)) q) : SatisfiedIn C q := by
  by_cases hqp : q = p
  · subst hqp
    rw [SatisfiedIn, permissionStatusInCache_of_some (Function.update_self ..)] at h
    exact absurd (Option.some.inj h) hs
  cases hC : C q with
  | some status' =>
    rw [SatisfiedIn, permissionStatusInCache_of_some (by rw [Function.update_of_ne hqp, hC])] at h
    rw [SatisfiedIn, permissionStatusInCache_of_some hC, h]
  | none =>
    rw [SatisfiedIn, permissionStatusInCache_of_none (by rw [Function.update_of_ne hqp, hC])] at h
    by_cases hap : q.actorLevel = p
    · rw [hap, Function.update_self] at h
      exact absurd (Option.some.inj h) hs
    · rw [Function.update_of_ne hap] at h
      rw [SatisfiedIn, permissionStatusInCache_of_none hC, h]

/-- After `permission_satisfied` is written at `p`, a satisfied level was satisfied before,
is `p`, or falls back to `p`. -/
theorem SatisfiedIn.of_update_satisfied {C : PermissionCache} {p q : PermissionLevel}
    (h : SatisfiedIn (Function.update C p (some .permissionSatisfied)) q) :
    SatisfiedIn C q ∨ q = p ∨ (C q = none ∧ q.actorLevel = p) := by
  by_cases hqp : q = p
  · exact Or.inr (Or.inl hqp)
  cases hC : C q with
  | some status =>
    rw [SatisfiedIn, permissionStatusInCache_of_some (by rw [Function.update_of_ne hqp, hC])] at h
    exact Or.inl (by rw [SatisfiedIn, permissionStatusInCache_of_some hC, h])
  | none =>
    by_cases hap : q.actorLevel = p
    · exact Or.inr (Or.inr ⟨rfl, hap⟩)
    · rw [SatisfiedIn, permissionStatusInCache_of_none (by rw [Function.update_of_ne hqp, hC]),
        Function.update_of_ne hap] at h
      exact Or.inl (by rw [SatisfiedIn, permissionStatusInCache_of_none hC, h])

/-! ### The invariant -/

section Invariant

variable (permissionToAuthority : PermissionLevel → Option (Authority K))
  (providedKeys : List K) (providedPermissions : List PermissionLevel)

/-- `level` has a derivation that avoids any levels the cache does not report satisfied. -/
def Good (C : PermissionCache) (level : PermissionLevel) : Prop :=
  ∀ anc : List PermissionLevel, (∀ r ∈ anc, ¬ SatisfiedIn C r) →
    ∃ d, Derives permissionToAuthority providedKeys providedPermissions anc d level

/-- Every level the cache reports satisfied is `Good`. -/
def CacheSound (C : PermissionCache) : Prop :=
  ∀ level, SatisfiedIn C level → Good permissionToAuthority providedKeys providedPermissions C level

/-- `C'` keeps every entry of `C` and every level `C` reports satisfied. -/
structure CacheExtends (C C' : PermissionCache) : Prop where
  entry : ∀ level status, C level = some status → C' level = some status
  satisfied : ∀ level, SatisfiedIn C level → SatisfiedIn C' level

variable {permissionToAuthority providedKeys providedPermissions}

theorem CacheExtends.refl (C : PermissionCache) : CacheExtends C C :=
  ⟨fun _ _ h => h, fun _ h => h⟩

theorem CacheExtends.trans {C C' C'' : PermissionCache} (h : CacheExtends C C')
    (h' : CacheExtends C' C'') : CacheExtends C C'' :=
  ⟨fun level status hC => h'.entry _ _ (h.entry level status hC),
    fun level hC => h'.satisfied _ (h.satisfied level hC)⟩

/-- A write over a level that `C` has no entry for, into a cache that does not report the level
satisfied, keeps what `C` had. -/
theorem CacheExtends.update {C C' : PermissionCache} {p : PermissionLevel}
    (v : Option PermissionCacheStatus) (h : CacheExtends C C') (hp : C p = none)
    (hp' : ¬ SatisfiedIn C' p) : CacheExtends C (Function.update C' p v) := by
  constructor
  · intro level status hC
    have hne : level ≠ p := by
      rintro rfl
      rw [hp] at hC
      cases hC
    rw [Function.update_of_ne hne]
    exact h.entry level status hC
  · intro level hC
    exact SatisfiedIn.update v hp' (h.satisfied level hC)

/-- `Good` only gets easier as more levels are reported satisfied. -/
theorem Good.mono {C C' : PermissionCache} {level : PermissionLevel}
    (h : ∀ q, SatisfiedIn C q → SatisfiedIn C' q)
    (hgood : Good permissionToAuthority providedKeys providedPermissions C level) :
    Good permissionToAuthority providedKeys providedPermissions C' level := by
  intro anc hanc
  exact hgood anc (fun r hr hsat => hanc r hr (h r hsat))

/-- A write of any status but `permission_satisfied`, at a level not reported satisfied, keeps
the cache sound. -/
theorem CacheSound.update {C : PermissionCache} {p : PermissionLevel}
    {status : PermissionCacheStatus} (hC : CacheSound permissionToAuthority providedKeys
      providedPermissions C)
    (hp : ¬ SatisfiedIn C p) (hs : status ≠ .permissionSatisfied) :
    CacheSound permissionToAuthority providedKeys providedPermissions
      (Function.update C p (some status)) := by
  intro level hlevel
  exact (hC level (SatisfiedIn.of_update hs hlevel)).mono (fun q hq => SatisfiedIn.update _ hp hq)

/-- The authority of `p`, met by `Good` levels, derives `p` outside any levels that are not
reported satisfied, as long as `p` itself is not. -/
theorem exists_derives_of_meets {C : PermissionCache} {p : PermissionLevel} {a : Authority K}
    {anc : List PermissionLevel} (ha : permissionToAuthority p = some a)
    (hmeets : Meets providedKeys (Good permissionToAuthority providedKeys providedPermissions C) a)
    (hp : p ∉ anc) (hanc : ∀ r ∈ p :: anc, ¬ SatisfiedIn C r) :
    ∃ d, Derives permissionToAuthority providedKeys providedPermissions anc d p := by
  have hmet : Meets providedKeys
      (fun q => ∃ d, Derives permissionToAuthority providedKeys providedPermissions (p :: anc) d q)
      a :=
    hmeets.mono (fun q hq => hq (p :: anc) hanc)
  obtain ⟨d, hd⟩ := hmet.exists_depth
  exact ⟨d + 1, Derives.of_authorityMet hp ha hd⟩

/-- Writing `permission_satisfied` over the `being_evaluated` mark of `p`, once the authority of
`p` is met by `Good` levels, keeps the cache sound. -/
theorem CacheSound.update_satisfied {C : PermissionCache} {p : PermissionLevel} {a : Authority K}
    (hC : CacheSound permissionToAuthority providedKeys providedPermissions C)
    (hp : C p = some .beingEvaluated) (ha : permissionToAuthority p = some a)
    (hmeets : Meets providedKeys (Good permissionToAuthority providedKeys providedPermissions C) a) :
    CacheSound permissionToAuthority providedKeys providedPermissions
      (Function.update C p (some .permissionSatisfied)) := by
  have hpC : ¬ SatisfiedIn C p := not_satisfiedIn_of_beingEvaluated hp
  -- levels not reported satisfied after the write were not reported satisfied before
  have hbefore : ∀ anc : List PermissionLevel,
      (∀ r ∈ anc, ¬ SatisfiedIn (Function.update C p (some .permissionSatisfied)) r) →
      ∀ r ∈ anc, ¬ SatisfiedIn C r :=
    fun anc hanc r hr hsat => hanc r hr (SatisfiedIn.update _ hpC hsat)
  have hsatp : SatisfiedIn (Function.update C p (some .permissionSatisfied)) p :=
    permissionStatusInCache_of_some (Function.update_self ..)
  intro level hlevel
  rcases SatisfiedIn.of_update_satisfied hlevel with hold | rfl | ⟨hnone, hap⟩
  case inl =>
    exact (hC level hold).mono (fun q hq => SatisfiedIn.update _ hpC hq)
  case inr.inl =>
    -- the level just satisfied: its authority, around its own `being_evaluated` mark
    intro anc hanc
    refine exists_derives_of_meets ha hmeets (fun hmem => hanc _ hmem hsatp) ?_
    intro r hr
    rcases List.mem_cons.mp hr with rfl | hr
    · exact hpC
    · exact hbefore anc hanc r hr
  case inr.inr =>
    -- a level that falls back to the one just satisfied: through its actor level
    have hne : level ≠ p := by
      rintro rfl
      rw [hp] at hnone
      cases hnone
    intro anc hanc
    have hlevel_anc : level ∉ anc := fun hmem => hanc _ hmem hlevel
    have hp_anc : p ∉ level :: anc := by
      rintro hmem
      rcases List.mem_cons.mp hmem with h | h
      · exact hne h.symm
      · exact hanc _ h hsatp
    obtain ⟨d, hd⟩ := exists_derives_of_meets ha hmeets hp_anc (by
      intro r hr
      rcases List.mem_cons.mp hr with rfl | hr
      · exact hpC
      rcases List.mem_cons.mp hr with rfl | hr
      · -- the level falls back to the `being_evaluated` mark
        rw [SatisfiedIn, permissionStatusInCache_of_none hnone, hap, hp]
        simp
      · exact hbefore anc hanc r hr)
    exact ⟨d, .actorLevel hlevel_anc (hap ▸ hd)⟩

variable (permissionToAuthority providedKeys providedPermissions) in
/-- The cache a top-level call starts from is sound. -/
theorem cacheSound_initializePermissionCache :
    CacheSound permissionToAuthority providedKeys providedPermissions
      (initializePermissionCache providedPermissions) := by
  intro level hlevel anc hanc
  have hprovided : ∀ q, initializePermissionCache providedPermissions q = some .permissionSatisfied →
      q ∈ providedPermissions := by
    intro q hq
    by_contra hmem
    simp [initializePermissionCache, hmem] at hq
  have hlevel_anc : level ∉ anc := fun hmem => hanc _ hmem hlevel
  cases hC : initializePermissionCache providedPermissions level with
  | some status =>
    rw [SatisfiedIn, permissionStatusInCache_of_some hC] at hlevel
    exact ⟨0, .provided (hprovided level (hC.trans hlevel)) hlevel_anc⟩
  | none =>
    -- only the actor level is provided
    rw [SatisfiedIn, permissionStatusInCache_of_none hC] at hlevel
    have hne : level.actorLevel ≠ level := by
      intro h
      rw [h, hC] at hlevel
      cases hlevel
    refine ⟨0, .actorLevel hlevel_anc (.provided (hprovided _ hlevel) ?_)⟩
    rintro hmem
    rcases List.mem_cons.mp hmem with h | h
    · exact hne h
    · exact hanc _ h (permissionStatusInCache_of_some hlevel)

end Invariant

/-! ### One entry of the `meta_permission_map` -/

/-- The key entry of a `meta_permission_map` entry, if it is one. -/
def MetaPermission.keyEntries : MetaPermission K → List (KeyWeight K)
  | .key p => [p]
  | _ => []

/-- The account entry of a `meta_permission_map` entry, if it is one. -/
def MetaPermission.accountEntries : MetaPermission K → List PermissionLevelWeight
  | .account p => [p]
  | _ => []

/-- No entry of a list of non-key kinds has a key entry. -/
theorem flatMap_const_nil {α β : Type*} (l : List α) : l.flatMap (fun _ => ([] : List β)) = [] :=
  List.flatMap_eq_nil_iff.mpr (fun _ _ => rfl)

theorem flatMap_keyEntries_metaPermissions (authority : Authority K) :
    ((metaPermissions authority).flatMap MetaPermission.keyEntries).Perm authority.keys := by
  have h := (metaPermissions_perm authority).flatMap_right MetaPermission.keyEntries
  simpa [List.flatMap_append, List.flatMap_map, Function.comp_def, MetaPermission.keyEntries,
    flatMap_const_nil] using h

theorem flatMap_accountEntries_metaPermissions (authority : Authority K) :
    ((metaPermissions authority).flatMap MetaPermission.accountEntries).Perm authority.accounts := by
  have h := (metaPermissions_perm authority).flatMap_right MetaPermission.accountEntries
  simpa [List.flatMap_append, List.flatMap_map, Function.comp_def, MetaPermission.accountEntries,
    flatMap_const_nil] using h

/-- Adding a weight to the `uint32_t` total adds at most that weight: a wrap only lowers it. -/
theorem toNat_add_toUInt32_le (totalWeight : UInt32) (weight : UInt16) :
    (totalWeight + weight.toUInt32).toNat ≤ totalWeight.toNat + weight.toNat := by
  rw [UInt32.toNat_add, UInt16.toNat_toUInt32]
  exact Nat.mod_le _ _

section Visitor

variable (permissionToAuthority : PermissionLevel → Option (Authority K))
  (providedKeys : List K) (providedPermissions : List PermissionLevel)

/-- What a nested `satisfied` call guarantees from a sound cache: the cache stays sound and keeps
what it had, and a satisfied authority is met by `Good` levels. -/
def EvalSound (eval : Authority K → CheckerState → Bool × CheckerState) : Prop :=
  ∀ a st, CacheSound permissionToAuthority providedKeys providedPermissions st.cachedPermissions →
    CacheSound permissionToAuthority providedKeys providedPermissions
      (eval a st).2.cachedPermissions ∧
    CacheExtends st.cachedPermissions (eval a st).2.cachedPermissions ∧
    ((eval a st).1 = true →
      Meets providedKeys (Good permissionToAuthority providedKeys providedPermissions
        (eval a st).2.cachedPermissions) a)

/-- The invariant of the loop over the `meta_permission_map`, started from the cache `C₀`, after
visiting the entries `pre`: the total is made of provided keys and `Good` levels among them. -/
structure TallyInv (C₀ : PermissionCache) (pre : List (MetaPermission K))
    (s : CheckerState × UInt32) : Prop where
  sound : CacheSound permissionToAuthority providedKeys providedPermissions s.1.cachedPermissions
  grows : CacheExtends C₀ s.1.cachedPermissions
  tally : ∃ ks ws, ks.Sublist (pre.flatMap MetaPermission.keyEntries) ∧
    (∀ k ∈ ks, k.key ∈ providedKeys) ∧ ws.Sublist (pre.flatMap MetaPermission.accountEntries) ∧
    (∀ w ∈ ws, Good permissionToAuthority providedKeys providedPermissions s.1.cachedPermissions
      w.permission) ∧
    s.2.toNat ≤ sumKeyWeights ks + sumAccountWeights ws

variable {permissionToAuthority providedKeys providedPermissions}

/-- What the account visitor can do: nothing, count a level the cache reports satisfied, or
evaluate an unknown level below the depth limit and write the verdict. -/
theorem tallyPermission_cases
    (recurse : Option (Authority K → CheckerState → Bool × CheckerState))
    (w : PermissionLevelWeight) (st : CheckerState) (t : UInt32) :
    tallyPermission permissionToAuthority recurse w st t = (st, t) ∨
    (SatisfiedIn st.cachedPermissions w.permission ∧
      tallyPermission permissionToAuthority recurse w st t = (st, t + w.weight.toUInt32)) ∨
    ∃ eval a, permissionStatusInCache st.cachedPermissions w.permission = none ∧
      recurse = some eval ∧ permissionToAuthority w.permission = some a ∧
      tallyPermission permissionToAuthority recurse w st t =
        if (eval a (st.setStatus w.permission .beingEvaluated)).1 then
          ((eval a (st.setStatus w.permission .beingEvaluated)).2.setStatus w.permission
            .permissionSatisfied, t + w.weight.toUInt32)
        else
          ((eval a (st.setStatus w.permission .beingEvaluated)).2.setStatus w.permission
            .permissionUnsatisfied, t) := by
  unfold tallyPermission
  cases hs : permissionStatusInCache st.cachedPermissions w.permission with
  | none =>
    cases recurse with
    | none => exact Or.inl rfl
    | some eval =>
      cases ha : permissionToAuthority w.permission with
      | none => exact Or.inl rfl
      | some a => exact Or.inr (Or.inr ⟨eval, a, rfl, rfl, rfl, rfl⟩)
  | some status =>
    cases status with
    | permissionSatisfied => exact Or.inr (Or.inl ⟨hs, rfl⟩)
    | beingEvaluated => exact Or.inl rfl
    | permissionUnsatisfied => exact Or.inl rfl

/-- The account visitor keeps the cache sound, and adds the weight of a level only when the
level is `Good` afterwards. -/
theorem tallyPermission_spec {recurse : Option (Authority K → CheckerState → Bool × CheckerState)}
    (hrec : ∀ eval ∈ recurse, EvalSound permissionToAuthority providedKeys providedPermissions eval)
    (w : PermissionLevelWeight) (st : CheckerState) (t : UInt32)
    (hC : CacheSound permissionToAuthority providedKeys providedPermissions st.cachedPermissions) :
    CacheSound permissionToAuthority providedKeys providedPermissions
      (tallyPermission permissionToAuthority recurse w st t).1.cachedPermissions ∧
    CacheExtends st.cachedPermissions
      (tallyPermission permissionToAuthority recurse w st t).1.cachedPermissions ∧
    ((tallyPermission permissionToAuthority recurse w st t).2 = t ∨
      (Good permissionToAuthority providedKeys providedPermissions
        (tallyPermission permissionToAuthority recurse w st t).1.cachedPermissions w.permission ∧
      (tallyPermission permissionToAuthority recurse w st t).2 = t + w.weight.toUInt32)) := by
  rcases tallyPermission_cases recurse w st t with h | ⟨hsat, h⟩ | ⟨eval, a, hs, rfl, ha, h⟩
  · rw [h]
    exact ⟨hC, CacheExtends.refl _, Or.inl rfl⟩
  · rw [h]
    exact ⟨hC, CacheExtends.refl _, Or.inr ⟨hC _ hsat, rfl⟩⟩
  -- an unknown level is marked `being_evaluated` and its authority evaluated
  have hnone : st.cachedPermissions w.permission = none := eq_none_of_status_none hs
  have hnsat : ¬ SatisfiedIn st.cachedPermissions w.permission := not_satisfiedIn_of_status_none hs
  have hC₁ : CacheSound permissionToAuthority providedKeys providedPermissions
      (st.setStatus w.permission .beingEvaluated).cachedPermissions :=
    CacheSound.update hC hnsat (by decide)
  have hext₁ : CacheExtends st.cachedPermissions
      (st.setStatus w.permission .beingEvaluated).cachedPermissions :=
    (CacheExtends.refl _).update _ hnone hnsat
  obtain ⟨hC₂, hext₂, hmeets⟩ := hrec eval rfl a (st.setStatus w.permission .beingEvaluated) hC₁
  -- the mark survives the nested evaluation
  have hmark : (eval a (st.setStatus w.permission .beingEvaluated)).2.cachedPermissions
      w.permission = some .beingEvaluated :=
    hext₂.entry _ _ (Function.update_self ..)
  have hnsat₂ := not_satisfiedIn_of_beingEvaluated hmark
  have hext := hext₁.trans hext₂
  rw [h]
  cases hr : (eval a (st.setStatus w.permission .beingEvaluated)).1
  case false =>
    exact ⟨CacheSound.update hC₂ hnsat₂ (by decide), hext.update _ hnone hnsat₂, Or.inl rfl⟩
  case true =>
    have hC₃ := CacheSound.update_satisfied hC₂ hmark ha (hmeets hr)
    refine ⟨hC₃, hext.update _ hnone hnsat₂, Or.inr ⟨?_, rfl⟩⟩
    exact hC₃ _ (permissionStatusInCache_of_some (Function.update_self ..))

variable [DecidableEq K]

/-- The key visitor leaves the cache alone and adds the weight of a provided key only. -/
theorem tallyKey_spec (providedKeys : List K) (k : KeyWeight K) (st : CheckerState) (t : UInt32) :
    (tallyKey providedKeys k st t).1.cachedPermissions = st.cachedPermissions ∧
    ((tallyKey providedKeys k st t).2 = t ∨
      (k.key ∈ providedKeys ∧ (tallyKey providedKeys k st t).2 = t + k.weight.toUInt32)) := by
  unfold tallyKey
  cases hi : providedKeys.idxOf? k.key with
  | none => exact ⟨rfl, Or.inl rfl⟩
  | some i =>
    have hmem : k.key ∈ providedKeys := List.isSome_idxOf?.mp (by rw [hi]; rfl)
    exact ⟨rfl, Or.inr ⟨hmem, rfl⟩⟩

/-- **The loop step.** Visiting one more entry keeps the loop invariant. -/
theorem tallyInv_visit {recurse : Option (Authority K → CheckerState → Bool × CheckerState)}
    (hrec : ∀ eval ∈ recurse, EvalSound permissionToAuthority providedKeys providedPermissions eval)
    {C₀ : PermissionCache} {pre : List (MetaPermission K)} {s : CheckerState × UInt32}
    (e : MetaPermission K) (h : TallyInv permissionToAuthority providedKeys providedPermissions C₀ pre s) :
    TallyInv permissionToAuthority providedKeys providedPermissions C₀ (pre ++ [e])
      (visit permissionToAuthority providedKeys recurse e s) := by
  obtain ⟨st, t⟩ := s
  obtain ⟨hC, hgrow, ks, ws, hks, hkp, hws, hgood, hle⟩ := h
  dsimp only at hC hgrow hgood hle
  have hks' : ks.Sublist ((pre ++ [e]).flatMap MetaPermission.keyEntries) := by
    rw [List.flatMap_append]
    exact hks.trans (List.sublist_append_left _ _)
  have hws' : ws.Sublist ((pre ++ [e]).flatMap MetaPermission.accountEntries) := by
    rw [List.flatMap_append]
    exact hws.trans (List.sublist_append_left _ _)
  cases e with
  | wait p =>
    rw [visit_wait]
    exact ⟨hC, hgrow, ks, ws, hks', hkp, hws', hgood, hle⟩
  | key k =>
    rw [visit_key]
    obtain ⟨hcache, hadd⟩ := tallyKey_spec providedKeys k st t
    refine ⟨hcache ▸ hC, hcache ▸ hgrow, ?_⟩
    rcases hadd with hsame | ⟨hk, hsum⟩
    · refine ⟨ks, ws, hks', hkp, hws', fun w hw => hcache ▸ hgood w hw, ?_⟩
      rw [hsame]
      exact hle
    · -- the key joins the counted keys
      refine ⟨ks ++ [k], ws, ?_, ?_, hws', fun w hw => hcache ▸ hgood w hw, ?_⟩
      · rw [List.flatMap_append]
        exact hks.append (List.Sublist.refl _)
      · intro k' hk'
        rcases List.mem_append.mp hk' with hk' | hk'
        · exact hkp k' hk'
        · rw [List.mem_singleton.mp hk']
          exact hk
      · have hwrap := toNat_add_toUInt32_le t k.weight
        rw [hsum, sumKeyWeights_append, sumKeyWeights_singleton]
        omega
  | account w =>
    rw [visit_account]
    obtain ⟨hC', hext, hadd⟩ := tallyPermission_spec hrec w st t hC
    have hgood' := fun w' hw' => (hgood w' hw').mono hext.satisfied
    refine ⟨hC', hgrow.trans hext, ?_⟩
    rcases hadd with hsame | ⟨hw, hsum⟩
    · refine ⟨ks, ws, hks', hkp, hws', hgood', ?_⟩
      rw [hsame]
      exact hle
    · -- the level joins the counted levels
      refine ⟨ks, ws ++ [w], hks', hkp, ?_, ?_, ?_⟩
      · rw [List.flatMap_append]
        exact hws.append (List.Sublist.refl _)
      · intro w' hw'
        rcases List.mem_append.mp hw' with hw' | hw'
        · exact hgood' w' hw'
        · rw [List.mem_singleton.mp hw']
          exact hw
      · have hwrap := toNat_add_toUInt32_le t w.weight
        rw [hsum, sumAccountWeights_append, sumAccountWeights_singleton]
        omega

/-! ### The recursion -/

theorem satisfiedWith_fst (recurse : Option (Authority K → CheckerState → Bool × CheckerState))
    (a : Authority K) (st : CheckerState) :
    (satisfiedWith permissionToAuthority providedKeys recurse a st).1 =
      (SearchLoop.run (visit permissionToAuthority providedKeys recurse)
        (fun s => decide (a.threshold ≤ s.2)) (metaPermissions a) (st, 0)).1 := by
  unfold satisfiedWith
  split <;> simp_all

/-- The `KeyReverter` restores the used keys only: the cache keeps what the loop wrote. -/
theorem satisfiedWith_cachedPermissions
    (recurse : Option (Authority K → CheckerState → Bool × CheckerState))
    (a : Authority K) (st : CheckerState) :
    (satisfiedWith permissionToAuthority providedKeys recurse a st).2.cachedPermissions =
      (SearchLoop.run (visit permissionToAuthority providedKeys recurse)
        (fun s => decide (a.threshold ≤ s.2)) (metaPermissions a) (st, 0)).2.1.cachedPermissions := by
  unfold satisfiedWith
  split <;> simp_all

/-- **One authority.** If every nested call is sound, so is the evaluation of an authority. -/
theorem satisfiedWith_spec {recurse : Option (Authority K → CheckerState → Bool × CheckerState)}
    (hrec : ∀ eval ∈ recurse, EvalSound permissionToAuthority providedKeys providedPermissions eval) :
    EvalSound permissionToAuthority providedKeys providedPermissions
      (satisfiedWith permissionToAuthority providedKeys recurse) := by
  intro a st hC
  -- the loop invariant holds for some prefix of the `meta_permission_map`
  obtain ⟨ys, hys, hinv⟩ := SearchLoop.run_induction (visit permissionToAuthority providedKeys recurse)
    (fun s => decide (a.threshold ≤ s.2))
    (TallyInv permissionToAuthority providedKeys providedPermissions st.cachedPermissions)
    (fun _ e _ h => tallyInv_visit hrec e h) (metaPermissions a) [] (st, 0)
    ⟨hC, CacheExtends.refl _, [], [], List.nil_sublist _, by simp, List.nil_sublist _, by simp,
      by simp⟩
  obtain ⟨hC', hgrow, ks, ws, hks, hkp, hws, hgood, hle⟩ := hinv
  rw [satisfiedWith_cachedPermissions, satisfiedWith_fst]
  refine ⟨hC', hgrow, ?_⟩
  intro hfound
  -- an early exit means the total reached the threshold
  have hdone := SearchLoop.done_of_run_eq_true _ _ _ _ hfound
  rw [decide_eq_true_iff] at hdone
  refine ⟨ks, ws, ?_, hkp, ?_, hgood, ?_⟩
  · rw [List.nil_append] at hks
    exact (hks.trans (hys.sublist.flatMap _)).subperm.trans
      (flatMap_keyEntries_metaPermissions a).subperm
  · rw [List.nil_append] at hws
    exact (hws.trans (hys.sublist.flatMap _)).subperm.trans
      (flatMap_accountEntries_metaPermissions a).subperm
  · exact Nat.le_trans (UInt32.le_iff_toNat_le.mp hdone) hle

variable (permissionToAuthority providedKeys providedPermissions) in
/-- **The recursion.** Every evaluation, at any remaining depth, keeps the cache sound. -/
theorem satisfiedAt_spec (m : ℕ) :
    EvalSound permissionToAuthority providedKeys providedPermissions
      (satisfiedAt permissionToAuthority providedKeys m) := by
  induction m with
  | zero =>
    -- at the depth limit there is no nested call
    exact satisfiedWith_spec (fun eval heval => by cases heval)
  | succ m ih =>
    exact satisfiedWith_spec (fun eval heval => by cases heval; exact ih)

variable (permissionToAuthority providedKeys providedPermissions) in
theorem nestedAt_spec (m : ℕ) :
    ∀ eval ∈ nestedAt permissionToAuthority providedKeys m,
      EvalSound permissionToAuthority providedKeys providedPermissions eval := by
  cases m with
  | zero => exact fun eval heval => by cases heval
  | succ m =>
    exact fun eval heval => by
      cases heval
      exact satisfiedAt_spec permissionToAuthority providedKeys providedPermissions m

end Visitor

/-! ### Soundness of the checker -/

variable [DecidableEq K]

/-- **Soundness.** An authority that `satisfied` accepts has a finite derivation from the
provided keys and permissions, in which no level is used inside its own derivation. -/
theorem satisfiedAuthority_sound (c : AuthorityChecker K) (authority : Authority K)
    (h : (c.satisfiedAuthority authority).1 = true) :
    ∃ d, AuthorityMet c.permissionToAuthority c.providedKeys c.providedPermissions [] d authority := by
  rw [AuthorityChecker.satisfiedAuthority_fst] at h
  have hinit := cacheSound_initializePermissionCache c.permissionToAuthority c.providedKeys
    c.providedPermissions
  obtain ⟨-, -, hmeets⟩ := satisfiedAt_spec c.permissionToAuthority c.providedKeys
    c.providedPermissions c.recursionDepthLimit.toNat authority c.initialState hinit
  -- a `Good` level has a derivation outside the empty list of levels
  exact ((hmeets h).mono (fun p hp => hp [] (by simp))).exists_depth

/-- The level `⟨n, permission_name()⟩`, its own actor level. -/
def actorLevelOf (n : UInt64) : PermissionLevel := ⟨⟨n⟩, Name.empty⟩

/-- A permission graph in which `A` needs `B`, and `B` needs the key `7`. -/
def cachedDepthGraph (p : PermissionLevel) : Option (Authority ℕ) :=
  if p = actorLevelOf 1 then some ⟨1, [], [⟨actorLevelOf 2, 1⟩], []⟩
  else if p = actorLevelOf 2 then some ⟨1, [⟨7, 1⟩], [], []⟩
  else none

/-- An authority that needs both `B` and `A`, visited in that order. -/
def cachedDepthAuthority : Authority ℕ := ⟨3, [], [⟨actorLevelOf 2, 2⟩, ⟨actorLevelOf 1, 1⟩], []⟩

theorem satisfiedAuthority_sound_cachedDepth :
    ((AuthorityChecker.make cachedDepthGraph 1 [7] []).satisfiedAuthority cachedDepthAuthority).1 =
      true ∧
    ∃ d, AuthorityMet cachedDepthGraph [7] [] [] d cachedDepthAuthority :=
  ⟨by decide, satisfiedAuthority_sound (AuthorityChecker.make cachedDepthGraph 1 [7] [])
    cachedDepthAuthority (by decide)⟩

/-- Within one nested authority, `A` cannot be derived: `B` would need its key one level
further down. -/
theorem not_derives_cachedDepth_one {anc : List PermissionLevel} :
    ¬ Derives cachedDepthGraph [7] [] anc 1 (actorLevelOf 1) := by
  intro h
  cases h with
  | provided hmem => cases hmem
  | actorLevel hp hd => exact hd.not_mem List.mem_cons_self
  | authority ks ws hp ha hks hkp hws hder hthr =>
    have ha' : cachedDepthGraph (actorLevelOf 1) = some ⟨1, [], [⟨actorLevelOf 2, 1⟩], []⟩ := rfl
    rw [ha'] at ha
    cases ha
    -- below the depth bound no listed level derives, and no key is listed
    have hbound := Meets.threshold_le (fun _ => false)
      (fun w _ hw => absurd (hw.provided_of_depth_zero rfl) (by simp))
      ⟨ks, ws, hks, hkp, hws, hder, hthr⟩
    simp at hbound

/-- **The depth bound fails.** With `recursion_depth_limit = 1` the checker accepts
`cachedDepthAuthority`: it evaluates `B` first and caches it satisfied, then meets the authority
of `A` with the cached verdict for `B`. Every derivation nests two authorities (`A`, then `B`). -/
theorem satisfiedAuthority_not_authorityMet_depth :
    ((AuthorityChecker.make cachedDepthGraph 1 [7] []).satisfiedAuthority cachedDepthAuthority).1 =
      true ∧
    ¬ AuthorityMet cachedDepthGraph [7] [] [] 1 cachedDepthAuthority := by
  refine ⟨by decide, ?_⟩
  intro hmet
  -- only `B` can count, which is short of the threshold
  have hbound := Meets.threshold_le (fun w => w.permission != actorLevelOf 1)
    (fun w _ hw => by
      by_cases hA : w.permission = actorLevelOf 1
      · rw [hA] at hw
        exact absurd hw not_derives_cachedDepth_one
      · simpa using hA)
    hmet
  simp [cachedDepthAuthority, actorLevelOf, Name.empty] at hbound

/-- **Soundness for a permission level.** A level that `satisfied` accepts has a finite
derivation. -/
theorem satisfied_sound (c : AuthorityChecker K) (permission : PermissionLevel)
    (h : (c.satisfied permission).1 = true) :
    ∃ d, Derives c.permissionToAuthority c.providedKeys c.providedPermissions [] d permission := by
  rw [AuthorityChecker.satisfied_fst, decide_eq_true_iff] at h
  have hinit := cacheSound_initializePermissionCache c.permissionToAuthority c.providedKeys
    c.providedPermissions
  obtain ⟨-, -, hadd⟩ := tallyPermission_spec
    (nestedAt_spec c.permissionToAuthority c.providedKeys c.providedPermissions
      c.recursionDepthLimit.toNat) ⟨permission, 1⟩ c.initialState 0 hinit
  rcases hadd with hzero | ⟨hgood, -⟩
  · -- the visitor added nothing, so the total is `0`
    rw [hzero] at h
    exact absurd h (by decide)
  · exact hgood [] (by simp)

/-! ### Monotonicity -/

section KeyReverter

variable (permissionToAuthority : PermissionLevel → Option (Authority K)) (providedKeys : List K)

/-- `KeyReverter`: an authority not satisfied leaves the used-key marks as they were. -/
theorem satisfiedWith_usedKeyMarks_of_false
    (recurse : Option (Authority K → CheckerState → Bool × CheckerState)) (authority : Authority K)
    (st : CheckerState)
    (h : (satisfiedWith permissionToAuthority providedKeys recurse authority st).1 = false) :
    (satisfiedWith permissionToAuthority providedKeys recurse authority st).2.usedKeyMarks =
      st.usedKeyMarks := by
  unfold satisfiedWith at h ⊢
  split
  · next heq => rw [heq] at h; cases h
  · rfl

/-- So does every nested call a visitor can make. -/
theorem nestedAt_usedKeyMarks_of_false {m : ℕ}
    {eval : Authority K → CheckerState → Bool × CheckerState}
    (hm : nestedAt permissionToAuthority providedKeys m = some eval) (a : Authority K)
    (st : CheckerState) (h : (eval a st).1 = false) : (eval a st).2.usedKeyMarks = st.usedKeyMarks := by
  cases m with
  | zero => cases hm
  | succ m =>
    cases hm
    rw [satisfiedAt_eq] at h ⊢
    exact satisfiedWith_usedKeyMarks_of_false permissionToAuthority providedKeys _ a st h

end KeyReverter

/-- **An authority not satisfied leaves `used_keys()` as it was.** -/
theorem satisfiedAuthority_snd_of_false (c : AuthorityChecker K) (authority : Authority K)
    (h : (c.satisfiedAuthority authority).1 = false) : (c.satisfiedAuthority authority).2 = c := by
  have hmarks := satisfiedWith_usedKeyMarks_of_false c.permissionToAuthority c.providedKeys _ authority
    c.initialState (by rw [← satisfiedAt_eq]; exact h)
  rw [← satisfiedAt_eq] at hmarks
  simp only [AuthorityChecker.satisfiedAuthority, hmarks]
  rfl

/-- **A permission level not satisfied leaves `used_keys()` as it was**: the visitor touches no
key, or evaluates the level's authority, which fails and reverts its keys. -/
theorem satisfied_snd_of_false (c : AuthorityChecker K) (permission : PermissionLevel)
    (h : (c.satisfied permission).1 = false) : (c.satisfied permission).2 = c := by
  rw [AuthorityChecker.satisfied_fst, decide_eq_false_iff_not] at h
  have hmarks : (tallyPermission c.permissionToAuthority
      (nestedAt c.permissionToAuthority c.providedKeys c.recursionDepthLimit.toNat)
      ⟨permission, 1⟩ c.initialState 0).1.usedKeyMarks = c.usedKeyMarks := by
    rcases tallyPermission_cases _ ⟨permission, 1⟩ c.initialState 0 with
      heq | ⟨-, heq⟩ | ⟨eval, a, -, hrec, -, heq⟩
    · rw [heq]
      rfl
    · -- a level the cache reports satisfied counts its weight `1`
      rw [heq] at h
      exact absurd (show (0 : UInt32) < 0 + (1 : UInt16).toUInt32 by decide) h
    · rw [heq] at h ⊢
      cases hr : (eval a (c.initialState.setStatus permission .beingEvaluated)).1
      · simp only [Bool.false_eq_true, if_false, CheckerState.setStatus_usedKeyMarks]
        exact nestedAt_usedKeyMarks_of_false _ _ hrec a _ hr
      · rw [if_pos hr] at h
        exact absurd (show (0 : UInt32) < 0 + (1 : UInt16).toUInt32 by decide) h
  simp only [AuthorityChecker.satisfied, hmarks]

/-- A permission graph in which `Y` is met by the key `1` or by `Q`, `Q` by the key `2`, and `D` by
`E`, which is met by `Q`. -/
def keySupersetGraph (p : PermissionLevel) : Option (Authority ℕ) :=
  if p = actorLevelOf 1 then some ⟨1, [⟨1, 1⟩], [⟨actorLevelOf 4, 1⟩], []⟩
  else if p = actorLevelOf 4 then some ⟨1, [⟨2, 1⟩], [], []⟩
  else if p = actorLevelOf 2 then some ⟨1, [], [⟨actorLevelOf 3, 1⟩], []⟩
  else if p = actorLevelOf 3 then some ⟨1, [], [⟨actorLevelOf 4, 1⟩], []⟩
  else none

/-- An authority that needs both `Y` and `D`, visited in that order. -/
def keySupersetAuthority : Authority ℕ :=
  ⟨2, [], [⟨actorLevelOf 1, 1⟩, ⟨actorLevelOf 2, 1⟩], []⟩

/-- **More keys or permissions can fail an authority.** With `recursion_depth_limit = 2` the key
`2` alone satisfies `keySupersetAuthority`: `Y` evaluates `Q` at depth 2 and caches it satisfied,
and `E`, at depth 2 itself, reuses that verdict. With the keys `1` and `2`, or with `Y` provided,
`Y` is met without evaluating `Q`; `E` may not evaluate it, so `D` fails, and the authority with
it. -/
theorem satisfiedAuthority_not_monotone :
    ((AuthorityChecker.make keySupersetGraph 2 [2] []).satisfiedAuthority
        keySupersetAuthority).1 = true ∧
    ((AuthorityChecker.make keySupersetGraph 2 [1, 2] []).satisfiedAuthority
        keySupersetAuthority).1 = false ∧
    ((AuthorityChecker.make keySupersetGraph 2 [2] [actorLevelOf 1]).satisfiedAuthority
        keySupersetAuthority).1 = false := by
  decide

end Eosio.Chain
