import Mathlib
import TaurusNode.Chain.ResourceLimits
import TaurusNode.Lib.KeyedList
import TaurusNode.Lib.Fallible

/-!
# The totals of the resource limits

`resource_limits_state_object` keeps `total_ram_bytes`, `total_cpu_weight` and
`total_net_weight` so that an account's share of the chain can be read without a walk over
all accounts. What they should hold is `inForceTotal`: over the limits in force (the rows that
are not pending), the sum of the positive part of the field, `-1` (unlimited) and every other
negative value counting nothing.

`ResourceLimitsManager.Consistent` says the totals hold that, and that the `by_owner` keys are
unique. `initialize_account` adds a row that counts nothing, `set_account_limits` touches only
pending rows, and each round of `process_account_limit_updates` takes the old positive value
of the limits in force out of the total and puts the pending one in, so every call keeps
`Consistent` (`Consistent.apply`). Since the old value is one of the summands of the total,
the check "underflow when reverting old value" never fails in a consistent state
(`Consistent.processAccountLimitUpdates_ne_underflow`).

## Main results

* `Consistent.apply` — every call keeps the totals.
* `limitsReachable_totals` — in every reachable state the totals are the sums over the limits
  in force, and `process_account_limit_updates` never fails its underflow check.
-/

namespace Eosio.Chain

open Fallible

/-- Over the limits in force, the sum of the positive part of `field`. -/
def inForceTotal (field : ResourceLimitsObject → Int64) (limits : List ResourceLimitsObject) : ℕ :=
  ((limits.filter fun o => !o.pending).map fun o => (field o).toNatClampNeg).sum

/-- What one row adds to `inForceTotal`. -/
def inForceWeight (field : ResourceLimitsObject → Int64) (o : ResourceLimitsObject) : ℕ :=
  if o.pending then 0 else (field o).toNatClampNeg

variable {field : ResourceLimitsObject → Int64}

theorem inForceTotal_eq_sum (field : ResourceLimitsObject → Int64) (limits : List ResourceLimitsObject) :
    inForceTotal field limits = (limits.map (inForceWeight field)).sum := by
  induction limits with
  | nil => rfl
  | cons o limits ih =>
    unfold inForceTotal at ih ⊢
    cases ho : o.pending <;> simp [ho, inForceWeight, ih]

theorem inForceTotal_append_singleton (limits : List ResourceLimitsObject) (o : ResourceLimitsObject) :
    inForceTotal field (limits ++ [o]) = inForceTotal field limits + inForceWeight field o := by
  rw [inForceTotal_eq_sum, inForceTotal_eq_sum, List.map_append, List.sum_append, List.map_singleton,
    List.sum_singleton]

theorem inForceWeight_of_pending {o : ResourceLimitsObject} (ho : o.pending = true) :
    inForceWeight field o = 0 := by
  simp [inForceWeight, ho]

/-! ### Positive parts -/

theorem toNat_toUInt64_of_pos {v : Int64} (hv : 0 < v) : v.toUInt64.toNat = v.toNatClampNeg :=
  Int64.toNat_toUInt64_of_le (Int64.le_iff_toInt_le.mpr (le_of_lt (Int64.lt_iff_toInt_lt.mp hv)))

theorem toNatClampNeg_of_not_pos {v : Int64} (hv : ¬ 0 < v) : v.toNatClampNeg = 0 := by
  rw [← Int64.toNat_toInt]
  rw [Int64.lt_iff_toInt_lt] at hv
  simp only [Int64.toInt_zero, not_lt] at hv
  omega

@[simp] theorem toNatClampNeg_neg_one : (-1 : Int64).toNatClampNeg = 0 :=
  toNatClampNeg_of_not_pos (by decide)

/-! ### `update_state_and_value` -/

section UpdateStateAndValue

variable {total total' : UInt64} {value pendingValue : Int64} {which : String}

/-- Reverting takes the old positive value out of the total. -/
theorem revertOldValue_eq_ok {t : UInt64} (h : revertOldValue total value which = .ok t) :
    t.toNat + value.toNatClampNeg = total.toNat := by
  unfold revertOldValue at h
  by_cases hv : 0 < value
  · rw [if_pos hv] at h
    by_cases hle : value.toUInt64 ≤ total
    · rw [if_pos hle] at h
      obtain rfl := pure_eq_ok.mp h
      rw [UInt64.toNat_sub_of_le _ _ hle, ← toNat_toUInt64_of_pos hv]
      have := UInt64.le_iff_toNat_le.mp hle
      omega
    · rw [if_neg hle] at h
      exact absurd h throw_ne_ok
  · rw [if_neg hv] at h
    obtain rfl := pure_eq_ok.mp h
    rw [toNatClampNeg_of_not_pos hv, Nat.add_zero]

/-- Applying puts the new positive value into the total. -/
theorem applyNewValue_eq_ok {t : UInt64} (h : applyNewValue total pendingValue which = .ok t) :
    t.toNat = total.toNat + pendingValue.toNatClampNeg := by
  unfold applyNewValue at h
  by_cases hpv : 0 < pendingValue
  · rw [if_pos hpv] at h
    by_cases hle : pendingValue.toUInt64 ≤ 18446744073709551615 - total
    · -- the check keeps the sum below `UINT64_MAX`
      rw [if_pos hle] at h
      obtain rfl := pure_eq_ok.mp h
      have hroom := UInt64.le_iff_toNat_le.mp hle
      have htotal := UInt64.toNat_lt total
      rw [UInt64.toNat_sub_of_le _ _ (UInt64.le_iff_toNat_le.mpr (Nat.le_of_lt_succ
        (UInt64.toNat_lt total)))] at hroom
      rw [UInt64.toNat_add, Nat.mod_eq_of_lt (by simp at hroom; omega), ← toNat_toUInt64_of_pos hpv]
    · rw [if_neg hle] at h
      exact absurd h throw_ne_ok
  · rw [if_neg hpv] at h
    obtain rfl := pure_eq_ok.mp h
    rw [toNatClampNeg_of_not_pos hpv, Nat.add_zero]

/-- **`update_state_and_value` moves the total by the change of the positive part.** -/
theorem updateStateAndValue_eq_ok (h : updateStateAndValue total value pendingValue which = .ok total') :
    total'.toNat + value.toNatClampNeg = total.toNat + pendingValue.toNatClampNeg := by
  unfold updateStateAndValue at h
  obtain ⟨t, hrevert, happly⟩ := bind_eq_ok.mp h
  have hout := revertOldValue_eq_ok hrevert
  have hin := applyNewValue_eq_ok happly
  omega

/-- With the old positive value inside the total, the underflow check passes. -/
theorem updateStateAndValue_ne_underflow (hle : value.toNatClampNeg ≤ total.toNat) (w : String) :
    updateStateAndValue total value pendingValue which ≠ .error (.underflow w) := by
  intro h
  unfold updateStateAndValue at h
  rcases bind_eq_error.mp h with hrevert | ⟨t, -, happly⟩
  · -- reverting fails only when the value is above the total
    unfold revertOldValue at hrevert
    by_cases hv : 0 < value
    · rw [if_pos hv] at hrevert
      have hfits : value.toUInt64 ≤ total :=
        UInt64.le_iff_toNat_le.mpr (by rw [toNat_toUInt64_of_pos hv]; exact hle)
      rw [if_pos hfits] at hrevert
      cases hrevert
    · rw [if_neg hv] at hrevert
      cases hrevert
  · -- applying fails only with an overflow
    unfold applyNewValue at happly
    split_ifs at happly <;> cases happly

end UpdateStateAndValue

/-! ### The invariant -/

namespace ResourceLimitsManager

/-- The `by_owner` keys are unique and the three totals are the sums over the limits in force. -/
structure Consistent (m : ResourceLimitsManager) : Prop where
  keys_nodup : (m.limits.map ResourceLimitsObject.byOwner).Nodup
  totalRamBytes : m.state.totalRamBytes.toNat = inForceTotal (·.ramBytes) m.limits
  totalCpuWeight : m.state.totalCpuWeight.toNat = inForceTotal (·.cpuWeight) m.limits
  totalNetWeight : m.state.totalNetWeight.toNat = inForceTotal (·.netWeight) m.limits

theorem consistent_empty : empty.Consistent :=
  ⟨List.nodup_nil, rfl, rfl, rfl⟩

variable {m m' : ResourceLimitsManager}

theorem findByOwner_eq_some_iff (hkeys : (m.limits.map ResourceLimitsObject.byOwner).Nodup)
    {pending : Bool} {owner : Name} {o : ResourceLimitsObject} :
    m.findByOwner pending owner = some o ↔ o ∈ m.limits ∧ o.byOwner = (pending, owner) :=
  KeyedList.find?_key_eq_some_iff ResourceLimitsObject.byOwner hkeys

theorem findByOwner_eq_none_iff {pending : Bool} {owner : Name} :
    m.findByOwner pending owner = none ↔ (pending, owner) ∉ m.limits.map ResourceLimitsObject.byOwner := by
  rw [findByOwner, List.find?_eq_none, List.mem_map]
  simp

theorem getByOwner_eq_ok_iff (hkeys : (m.limits.map ResourceLimitsObject.byOwner).Nodup)
    {pending : Bool} {owner : Name} {o : ResourceLimitsObject} :
    m.getByOwner pending owner = .ok o ↔ o ∈ m.limits ∧ o.byOwner = (pending, owner) := by
  rw [← findByOwner_eq_some_iff hkeys, getByOwner]
  cases m.findByOwner pending owner with
  | none => exact ⟨fun h => absurd h throw_ne_ok, fun h => by cases h⟩
  | some o' => exact ⟨fun h => by rw [pure_eq_ok.mp h], fun h => by cases h; rfl⟩

/-- Rows keep the invariant when the totals stay and the new row has a new key. -/
theorem Consistent.append_singleton (h : m.Consistent) {o : ResourceLimitsObject}
    (hfresh : o.byOwner ∉ m.limits.map ResourceLimitsObject.byOwner)
    (hram : inForceWeight (·.ramBytes) o = 0) (hcpu : inForceWeight (·.cpuWeight) o = 0)
    (hnet : inForceWeight (·.netWeight) o = 0) (usageOwners : List Name) :
    Consistent ⟨m.limits ++ [o], usageOwners, m.state⟩ where
  keys_nodup := KeyedList.nodup_map_append_singleton _ h.keys_nodup hfresh
  totalRamBytes := by rw [inForceTotal_append_singleton, hram, Nat.add_zero]; exact h.totalRamBytes
  totalCpuWeight := by rw [inForceTotal_append_singleton, hcpu, Nat.add_zero]; exact h.totalCpuWeight
  totalNetWeight := by rw [inForceTotal_append_singleton, hnet, Nat.add_zero]; exact h.totalNetWeight

theorem Consistent.initializeAccount (h : m.Consistent) {account : Name}
    (hinit : m.initializeAccount account = .ok m') : m'.Consistent := by
  unfold ResourceLimitsManager.initializeAccount at hinit
  split_ifs at hinit with hexists
  obtain rfl := Except.ok.inj hinit
  have hnone : m.findByOwner false account = none := by
    cases hfind : m.findByOwner false account with
    | none => rfl
    | some o => simp [hfind] at hexists
  -- the new limits are unlimited, so they count nothing
  exact h.append_singleton (findByOwner_eq_none_iff.mp hnone) (by simp [inForceWeight])
    (by simp [inForceWeight]) (by simp [inForceWeight]) _

theorem Consistent.getOrCreatePendingAccountLimits (h : m.Consistent) {account : Name}
    {p : ResourceLimitsObject} (hget : m.getOrCreatePendingAccountLimits account = .ok (m', p)) :
    m'.Consistent ∧ p ∈ m'.limits ∧ p.byOwner = (true, account) := by
  unfold ResourceLimitsManager.getOrCreatePendingAccountLimits at hget
  split at hget
  · rename_i pendingLimits hfind
    obtain ⟨rfl, rfl⟩ := Prod.mk.inj (Except.ok.inj hget)
    exact ⟨h, (findByOwner_eq_some_iff h.keys_nodup).mp hfind⟩
  · rename_i hpending
    split at hget
    · cases hget
    · rename_i limits hfind
      obtain ⟨rfl, rfl⟩ := Prod.mk.inj (Except.ok.inj hget)
      have howner : limits.owner = account :=
        congrArg Prod.snd ((findByOwner_eq_some_iff h.keys_nodup).mp hfind).2
      -- the pending copy has a key of its own and counts nothing
      refine ⟨h.append_singleton ?_ (inForceWeight_of_pending rfl) (inForceWeight_of_pending rfl)
        (inForceWeight_of_pending rfl) _, List.mem_append_right _ (List.mem_singleton_self _), ?_⟩
      · rw [ResourceLimitsObject.byOwner, howner]
        exact findByOwner_eq_none_iff.mp hpending
      · rw [ResourceLimitsObject.byOwner, howner]

/-- Changing pending rows, keeping their keys, keeps the invariant. -/
theorem Consistent.modifyByOwner_pending (h : m.Consistent) (owner : Name)
    {f : ResourceLimitsObject → ResourceLimitsObject} (hf : ∀ o, (f o).byOwner = o.byOwner) :
    (m.modifyByOwner true owner f).Consistent := by
  have hweight (field : ResourceLimitsObject → Int64) :
      inForceTotal field (m.modifyByOwner true owner f).limits = inForceTotal field m.limits := by
    rw [inForceTotal_eq_sum, inForceTotal_eq_sum, modifyByOwner, List.map_map]
    congr 1
    refine List.map_congr_left fun o _ => ?_
    by_cases ho : o.byOwner = (true, owner)
    · -- a pending row counts nothing before and after
      have hfo := (hf o).trans ho
      simp only [Function.comp_apply, if_pos ho]
      rw [inForceWeight_of_pending (congrArg Prod.fst hfo), inForceWeight_of_pending
        (congrArg Prod.fst ho)]
    · simp only [Function.comp_apply, if_neg ho]
  exact ⟨by rw [modifyByOwner, KeyedList.map_key_update _ f hf]; exact h.keys_nodup,
    (hweight _).symm ▸ h.totalRamBytes, (hweight _).symm ▸ h.totalCpuWeight,
    (hweight _).symm ▸ h.totalNetWeight⟩

theorem Consistent.setAccountLimits (h : m.Consistent) {account : Name} {ramBytes netWeight cpuWeight : Int64}
    {decreased : Bool}
    (hset : m.setAccountLimits account ramBytes netWeight cpuWeight = .ok (m', decreased)) :
    m'.Consistent := by
  unfold ResourceLimitsManager.setAccountLimits at hset
  obtain ⟨⟨m₁, limits⟩, hget, hset⟩ := bind_eq_ok.mp hset
  obtain ⟨rfl, -⟩ := Prod.mk.inj (pure_eq_ok.mp hset)
  exact (h.getOrCreatePendingAccountLimits hget).1.modifyByOwner_pending account fun _ => rfl

/-! ### `process_account_limit_updates` -/

/-- One round moves the sum over the limits in force by the change of the row in force. -/
theorem inForceTotal_applyPending (field : ResourceLimitsObject → Int64)
    (hkeys : (m.limits.map ResourceLimitsObject.byOwner).Nodup) {itr actual : ResourceLimitsObject}
    (hitr : itr ∈ m.limits) (hpending : itr.pending = true) (hactual : actual ∈ m.limits)
    (hkey : actual.byOwner = (false, itr.owner)) (g : ResourceLimitsObject → ResourceLimitsObject) :
    inForceTotal field ((m.modifyByOwner false itr.owner g).limits.erase itr) +
        inForceWeight field actual =
      inForceTotal field m.limits + inForceWeight field (g actual) := by
  have hupdate := KeyedList.sum_map_update_key ResourceLimitsObject.byOwner (inForceWeight field)
    hkeys hactual g
  rw [hkey] at hupdate
  -- the pending row is untouched by the update, and counts nothing when it goes
  have hmem : itr ∈ (m.modifyByOwner false itr.owner g).limits := by
    refine List.mem_map.mpr ⟨itr, hitr, ?_⟩
    rw [if_neg]
    simp [ResourceLimitsObject.byOwner, hpending]
  have herase := List.sum_map_erase (inForceWeight field) hmem
  rw [inForceWeight_of_pending hpending, zero_add] at herase
  rw [inForceTotal_eq_sum, inForceTotal_eq_sum, herase]
  exact hupdate

/-- **One round keeps a total**: the total moves as the sum over the limits in force does. -/
theorem total_applyPending (hkeys : (m.limits.map ResourceLimitsObject.byOwner).Nodup)
    {itr actual : ResourceLimitsObject} (hitr : itr ∈ m.limits) (hpending : itr.pending = true)
    (hactual : actual ∈ m.limits) (hkey : actual.byOwner = (false, itr.owner))
    (g : ResourceLimitsObject → ResourceLimitsObject) (hg : ∀ o, (g o).byOwner = o.byOwner)
    (field : ResourceLimitsObject → Int64) (hfield : field (g actual) = field itr)
    {total t : UInt64} {which : String} (htotal : total.toNat = inForceTotal field m.limits)
    (hmove : updateStateAndValue total (field actual) (field itr) which = .ok t) :
    t.toNat = inForceTotal field ((m.modifyByOwner false itr.owner g).limits.erase itr) := by
  have hsum := inForceTotal_applyPending field hkeys hitr hpending hactual hkey g
  have hmove := updateStateAndValue_eq_ok hmove
  have hinforce : actual.pending = false := congrArg Prod.fst hkey
  have hginforce : (g actual).pending = false := congrArg Prod.fst ((hg actual).trans hkey)
  simp only [inForceWeight, hinforce, hginforce, hfield, Bool.false_eq_true, if_false] at hsum
  omega

theorem Consistent.applyPending (h : m.Consistent) {itr : ResourceLimitsObject}
    (hitr : itr ∈ m.limits) (hpending : itr.pending = true) (happ : m.applyPending itr = .ok m') :
    m'.Consistent := by
  unfold ResourceLimitsManager.applyPending at happ
  obtain ⟨actual, hget, happ⟩ := bind_eq_ok.mp happ
  obtain ⟨hactual, hkey⟩ := (getByOwner_eq_ok_iff h.keys_nodup).mp hget
  obtain ⟨ram, hram, happ⟩ := bind_eq_ok.mp happ
  obtain ⟨cpu, hcpu, happ⟩ := bind_eq_ok.mp happ
  obtain ⟨net, hnet, happ⟩ := bind_eq_ok.mp happ
  obtain rfl := pure_eq_ok.mp happ
  have hg : ∀ o : ResourceLimitsObject,
      ({ o with
          ramBytes := itr.ramBytes
          cpuWeight := itr.cpuWeight
          netWeight := itr.netWeight } : ResourceLimitsObject).byOwner = o.byOwner :=
    fun _ => rfl
  refine ⟨?_, ?_, ?_, ?_⟩
  · -- the update keeps every key, and the removal drops one
    dsimp only
    exact (List.erase_sublist.map _).nodup
      (by rw [modifyByOwner, KeyedList.map_key_update _ _ hg]; exact h.keys_nodup)
  · exact total_applyPending h.keys_nodup hitr hpending hactual hkey _ hg (·.ramBytes) rfl
      h.totalRamBytes hram
  · exact total_applyPending h.keys_nodup hitr hpending hactual hkey _ hg (·.cpuWeight) rfl
      h.totalCpuWeight hcpu
  · exact total_applyPending h.keys_nodup hitr hpending hactual hkey _ hg (·.netWeight) rfl
      h.totalNetWeight hnet

/-- A row in force is one of the summands of a total. -/
theorem weight_le_inForceTotal {o : ResourceLimitsObject} (ho : o ∈ m.limits) (hinforce : o.pending = false)
    (field : ResourceLimitsObject → Int64) : (field o).toNatClampNeg ≤ inForceTotal field m.limits := by
  have hle := List.le_sum_of_mem (List.mem_map_of_mem (f := inForceWeight field) ho)
  rw [← inForceTotal_eq_sum] at hle
  simpa [inForceWeight, hinforce] using hle

theorem getByOwner_ne_underflow {pending : Bool} {owner : Name} (w : String) :
    m.getByOwner pending owner ≠ .error (.underflow w) := by
  unfold getByOwner
  split <;> nofun

/-- **A round never fails its underflow check** in a consistent state: the old value it takes out
of a total is one of the summands of that total. -/
theorem Consistent.applyPending_ne_underflow (h : m.Consistent) (itr : ResourceLimitsObject)
    (w : String) : m.applyPending itr ≠ .error (.underflow w) := by
  intro happ
  unfold ResourceLimitsManager.applyPending at happ
  rcases bind_eq_error.mp happ with hget | ⟨actual, hget, happ⟩
  · exact getByOwner_ne_underflow w hget
  obtain ⟨hactual, hkey⟩ := (getByOwner_eq_ok_iff h.keys_nodup).mp hget
  have hinforce : actual.pending = false := congrArg Prod.fst hkey
  have hle (field : ResourceLimitsObject → Int64) := weight_le_inForceTotal hactual hinforce field
  rcases bind_eq_error.mp happ with hram | ⟨ram, -, happ⟩
  · exact updateStateAndValue_ne_underflow (h.totalRamBytes ▸ hle (·.ramBytes)) w hram
  rcases bind_eq_error.mp happ with hcpu | ⟨cpu, -, happ⟩
  · exact updateStateAndValue_ne_underflow (h.totalCpuWeight ▸ hle (·.cpuWeight)) w hcpu
  rcases bind_eq_error.mp happ with hnet | ⟨net, -, happ⟩
  · exact updateStateAndValue_ne_underflow (h.totalNetWeight ▸ hle (·.netWeight)) w hnet
  cases happ

theorem pending_of_argmin {itr : ResourceLimitsObject}
    (hmin : (m.limits.filter (·.pending)).argmin (·.owner.value.toNat) = some itr) :
    itr ∈ m.limits ∧ itr.pending = true :=
  List.mem_filter.mp (List.argmin_mem hmin)

/-- The loop keeps the invariant, round after round. -/
theorem Consistent.processLoop (h : m.Consistent) {fuel : ℕ} (hloop : m.processLoop fuel = .ok m') :
    m'.Consistent := by
  induction fuel generalizing m with
  | zero =>
    obtain rfl := pure_eq_ok.mp hloop
    exact h
  | succ fuel ih =>
    unfold ResourceLimitsManager.processLoop at hloop
    split at hloop
    · obtain rfl := pure_eq_ok.mp hloop
      exact h
    · rename_i itr hmin
      obtain ⟨hitr, hpending⟩ := pending_of_argmin hmin
      obtain ⟨m₁, happ, hloop⟩ := bind_eq_ok.mp hloop
      exact ih (h.applyPending hitr hpending happ) hloop

/-- No round of the loop fails its underflow check. -/
theorem Consistent.processLoop_ne_underflow (h : m.Consistent) (fuel : ℕ) (w : String) :
    m.processLoop fuel ≠ .error (.underflow w) := by
  induction fuel generalizing m with
  | zero => nofun
  | succ fuel ih =>
    intro hloop
    unfold ResourceLimitsManager.processLoop at hloop
    split at hloop
    · cases hloop
    · rename_i itr hmin
      obtain ⟨hitr, hpending⟩ := pending_of_argmin hmin
      rcases bind_eq_error.mp hloop with happ | ⟨m₁, happ, hloop⟩
      · exact h.applyPending_ne_underflow itr w happ
      · exact ih (h.applyPending hitr hpending happ) hloop

/-- **Every call keeps the totals.** -/
theorem Consistent.apply (h : m.Consistent) {c : LimitsCall} (happ : c.apply m = .ok m') :
    m'.Consistent := by
  cases c with
  | initializeAccount account => exact h.initializeAccount happ
  | setAccountLimits account ramBytes netWeight cpuWeight =>
    obtain ⟨⟨m₁, decreased⟩, hset, rfl⟩ := map_eq_ok.mp happ
    exact h.setAccountLimits hset
  | processAccountLimitUpdates => exact h.processLoop happ

end ResourceLimitsManager

open ResourceLimitsManager in
theorem LimitsReachable.consistent {m : ResourceLimitsManager} (h : LimitsReachable m) :
    m.Consistent := by
  induction h with
  | empty => exact consistent_empty
  | call c _ happ ih => exact ih.apply happ

open ResourceLimitsManager in
/-- **The totals are the sums over the limits in force**: in every state that
`initialize_account`, `set_account_limits` and `process_account_limit_updates` reach, in any
order and with any accounts and values, each total of the state object is the sum over the
limits in force of the positive part of its field, and `process_account_limit_updates` never
fails its check "underflow when reverting old value". -/
theorem limitsReachable_totals {m : ResourceLimitsManager} (h : LimitsReachable m) :
    m.state.totalRamBytes.toNat = inForceTotal (·.ramBytes) m.limits ∧
      m.state.totalCpuWeight.toNat = inForceTotal (·.cpuWeight) m.limits ∧
      m.state.totalNetWeight.toNat = inForceTotal (·.netWeight) m.limits ∧
      ∀ which, m.processAccountLimitUpdates ≠ .error (.underflow which) := by
  have hc := h.consistent
  exact ⟨hc.totalRamBytes, hc.totalCpuWeight, hc.totalNetWeight,
    hc.processLoop_ne_underflow m.limits.length⟩

/-- One account, initialized, given a RAM limit of 100 bytes and a NET weight of 5 with CPU left
unlimited, and updated. -/
theorem limitsReachable_totals_oneAccount :
    (⟨[⟨⟨1⟩, false, 5, -1, 100⟩], [⟨1⟩], ⟨5, 0, 100⟩⟩ : ResourceLimitsManager).state.totalRamBytes.toNat =
        inForceTotal (·.ramBytes) [⟨⟨1⟩, false, 5, -1, 100⟩] ∧
      (⟨[⟨⟨1⟩, false, 5, -1, 100⟩], [⟨1⟩], ⟨5, 0, 100⟩⟩ : ResourceLimitsManager).state.totalCpuWeight.toNat =
        inForceTotal (·.cpuWeight) [⟨⟨1⟩, false, 5, -1, 100⟩] ∧
      (⟨[⟨⟨1⟩, false, 5, -1, 100⟩], [⟨1⟩], ⟨5, 0, 100⟩⟩ : ResourceLimitsManager).state.totalNetWeight.toNat =
        inForceTotal (·.netWeight) [⟨⟨1⟩, false, 5, -1, 100⟩] ∧
      ∀ which, (⟨[⟨⟨1⟩, false, 5, -1, 100⟩], [⟨1⟩], ⟨5, 0, 100⟩⟩ :
        ResourceLimitsManager).processAccountLimitUpdates ≠ .error (.underflow which) :=
  limitsReachable_totals
    (.call (m := ⟨[⟨⟨1⟩, false, -1, -1, -1⟩, ⟨⟨1⟩, true, 5, -1, 100⟩], [⟨1⟩], ⟨0, 0, 0⟩⟩)
      .processAccountLimitUpdates
      (.call (m := ⟨[⟨⟨1⟩, false, -1, -1, -1⟩], [⟨1⟩], ⟨0, 0, 0⟩⟩) (.setAccountLimits ⟨1⟩ 100 5 (-1))
        (.call (.initializeAccount ⟨1⟩) .empty (by decide)) (by decide))
      (by decide))

end Eosio.Chain
