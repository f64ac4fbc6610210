import Mathlib
import TaurusNode.Chain.ResourceLimits
import TaurusNode.Chain.UsageAccumulators

/-!
# Account usage against the account limits

A model of the usage half of `eosio::chain::resource_limits::resource_limits_manager`
(libraries/chain/resource_limits.cpp): the `resource_usage_object` rows, whose cpu and net
`usage_accumulator`s are the moving averages of `UsageAccumulators`, read against the weights of
`ResourceLimits`.

* `update_account_usage` adds nothing to each account's averages at the time slot, so that they
  are decayed to it;
* `get_account_cpu_limit_ex` and `get_account_net_limit_ex` report the account's share of the
  virtual capacity in the window, what it has used of it (rounded up) and what is left;
* `add_transaction_usage` adds the transaction's usage to each account's averages, and throws
  `tx_cpu_usage_exceeded` / `tx_net_usage_exceeded` when the usage in the window (rounded down)
  passes the account's share; then the block's pending usage.

The reports and the checks are one definition each over the `Resource` they read, the source's
cpu and net functions being that definition at `.cpu` and `.net`. The main result,
`addTransactionUsage_within_limit`, says that a usage no larger than a positive reported limit
passes the check, when the window is at most `rate_limiting_precision`: the check floors what
the report rounded up, and the contribution added in between is rounded up by less than one
unit once the window is shorter than the precision. A call that throws is `.error`, and chainbase
rolls its changes back.
-/

namespace Eosio.Chain

open Fallible

/-- `config::rate_limiting_precision`. -/
def rateLimitingPrecision : UInt64 := 1000 * 1000

/-- `config::maximum_elastic_resource_multiplier`. -/
def maximumElasticResourceMultiplier : UInt32 := 1000

/-- `resource_usage_object`, without its `id` and its `ram_usage`. -/
structure ResourceUsageObject where
  owner : Name
  netUsage : ExponentialMovingAverageAccumulator
  cpuUsage : ExponentialMovingAverageAccumulator
deriving DecidableEq, Repr

/-- `elastic_limit_parameters`, of which only `max` is read here. -/
structure ElasticLimitParameters where
  max : UInt64
deriving DecidableEq, Repr

/-- `resource_limits_config_object`. -/
structure ResourceLimitsConfigObject where
  cpuLimitParameters : ElasticLimitParameters
  netLimitParameters : ElasticLimitParameters
  accountCpuUsageAverageWindow : UInt32
  accountNetUsageAverageWindow : UInt32
deriving DecidableEq, Repr

/-- `resource_limits_state_object`, without its block averages: the weight totals of
`ResourceLimitsState`, the block's pending usage and the virtual limits. -/
structure ResourceLimitsStateObject extends ResourceLimitsState where
  pendingNetUsage : UInt64
  pendingCpuUsage : UInt64
  virtualNetLimit : UInt64
  virtualCpuLimit : UInt64
deriving DecidableEq, Repr

/-- The tables of the resource limits manager that the usage calls read. -/
structure ResourceUsageManager where
  limits : List ResourceLimitsObject
  usage : List ResourceUsageObject
  state : ResourceLimitsStateObject
  config : ResourceLimitsConfigObject
deriving DecidableEq, Repr

/-- `account_resource_limit`. -/
structure AccountResourceLimit where
  /-- Quantity used in the current window. -/
  used : Int64
  /-- Quantity available in the current window. -/
  available : Int64
  /-- Max per window under current congestion. -/
  max : Int64
  /-- The slot of `last_usage_update_time`. -/
  lastUsageUpdateTime : UInt32
  /-- Usage according to the given timestamp. -/
  currentUsed : Int64
deriving DecidableEq, Repr

/-- How a usage call fails. -/
inductive ResourceUsageError
  /-- A chainbase `get` of a row that does not exist. -/
  | limits (e : LimitsError)
  /-- A check of `usage_accumulator::add` or of `downgrade_cast`. -/
  | accumulator (e : AccumulatorError)
  /-- `tx_cpu_usage_exceeded`: "authorizing account '{n}' has insufficient cpu resources for
  this transaction". -/
  | txCpuUsageExceeded (account : Name)
  /-- `tx_net_usage_exceeded`: "authorizing account '{n}' has insufficient net resources for
  this transaction". -/
  | txNetUsageExceeded (account : Name)
  /-- `block_resource_exhausted`. -/
  | blockResourceExhausted (msg : String)
deriving DecidableEq, Repr

/-- The two resources billed over a window of slots. -/
inductive Resource
  | cpu
  | net
deriving DecidableEq, Repr

namespace Resource

/-- The account's weight: `cpu_weight` or `net_weight`. -/
def weight : Resource → ResourceLimitsObject → Int64
  | cpu, o => o.cpuWeight
  | net, o => o.netWeight

/-- `total_cpu_weight` or `total_net_weight`. -/
def totalWeight : Resource → ResourceLimitsStateObject → UInt64
  | cpu, s => s.totalCpuWeight
  | net, s => s.totalNetWeight

/-- `virtual_cpu_limit` or `virtual_net_limit`. -/
def virtualLimit : Resource → ResourceLimitsStateObject → UInt64
  | cpu, s => s.virtualCpuLimit
  | net, s => s.virtualNetLimit

/-- `account_cpu_usage_average_window` or `account_net_usage_average_window`. -/
def averageWindow : Resource → ResourceLimitsConfigObject → UInt32
  | cpu, c => c.accountCpuUsageAverageWindow
  | net, c => c.accountNetUsageAverageWindow

/-- `cpu_limit_parameters` or `net_limit_parameters`. -/
def limitParameters : Resource → ResourceLimitsConfigObject → ElasticLimitParameters
  | cpu, c => c.cpuLimitParameters
  | net, c => c.netLimitParameters

/-- The account's `cpu_usage` or `net_usage`. -/
def usage : Resource → ResourceUsageObject → ExponentialMovingAverageAccumulator
  | cpu, u => u.cpuUsage
  | net, u => u.netUsage

/-- Of a transaction's `cpu_usage` and `net_usage`, the one billed for the resource. -/
def units : Resource → UInt64 → UInt64 → UInt64
  | cpu, cpuUsage, _ => cpuUsage
  | net, _, netUsage => netUsage

/-- The error of the account check for the resource. -/
def exceeded : Resource → Name → ResourceUsageError
  | cpu, a => .txCpuUsageExceeded a
  | net, a => .txNetUsageExceeded a

end Resource

/-- `usage_accumulator::add(units, ordinal, window_size)` on a row's accumulator: the
accumulator it leaves, or what it throws. -/
def addUsage (acc : ExponentialMovingAverageAccumulator) (units : UInt64)
    (ordinal windowSize : UInt32) : Except ResourceUsageError ExponentialMovingAverageAccumulator :=
  match (ExponentialMovingAverageAccumulator.add rateLimitingPrecision units ordinal
      windowSize).run acc with
  | .ok _ acc' => pure acc'
  | .error e _ => throw (.accumulator e)

/-- `downgrade_cast<int64_t>` of an unsigned 128-bit value. -/
def downgradeCastInt64 (val : ℕ) : Except ResourceUsageError Int64 :=
  (Int64.ofNat ·) <$> (downgradeCast 0x7FFFFFFFFFFFFFFF val).mapError .accumulator

/-- `max_user_use_in_window`: the account's share of the capacity in the window, the product
with the weight taken in 128 bits. -/
def maxUserUseInWindow (capacityInWindow : ℕ) (weight : Int64) (allUserWeight : UInt64) : ℕ :=
  capacityInWindow * weight.toNatClampNeg % 2 ^ 128 / allUserWeight.toNat

namespace ResourceLimitsManager

/-- `get_account_limits(account)`: the pending limits when there are, else those in force. -/
def getAccountLimits (m : ResourceLimitsManager) (account : Name) :
    Except LimitsError ResourceLimitsObject :=
  match m.findByOwner true account with
  | some pendingBuo => pure pendingBuo
  | none => m.getByOwner false account

end ResourceLimitsManager

namespace ResourceUsageManager

variable (m : ResourceUsageManager)

/-- The account-limit tables, as `ResourceLimits` models them. -/
def toLimitsManager : ResourceLimitsManager :=
  ⟨m.limits, m.usage.map (·.owner), m.state.toResourceLimitsState⟩

/-- `get<resource_usage_object, by_owner>(owner)`. -/
def getUsage (owner : Name) : Except ResourceUsageError ResourceUsageObject :=
  match m.usage.find? (·.owner = owner) with
  | some usage => pure usage
  | none => throw (.limits .unknownKey)

/-- `modify` of the usage row of `owner`, which becomes `usage`. -/
def modifyUsage (owner : Name) (usage : ResourceUsageObject) : ResourceUsageManager :=
  { m with usage := m.usage.map fun u => if u.owner = owner then usage else u }

/-- One round of the loop of `update_account_usage`: nothing is added to the account's
averages at the time slot. -/
def updateUsage (a : Name) (timeSlot : UInt32) : Except ResourceUsageError ResourceUsageManager := do
  let usage ← m.getUsage a
  let netUsage ← addUsage usage.netUsage 0 timeSlot m.config.accountNetUsageAverageWindow
  let cpuUsage ← addUsage usage.cpuUsage 0 timeSlot m.config.accountCpuUsageAverageWindow
  pure (m.modifyUsage a { usage with netUsage := netUsage, cpuUsage := cpuUsage })

/-- `update_account_usage(accounts, time_slot)`. -/
def updateAccountUsage (accounts : List Name) (timeSlot : UInt32) :
    Except ResourceUsageError ResourceUsageManager :=
  accounts.foldlM (fun m a => m.updateUsage a timeSlot) m

/-- The account check of `add_transaction_usage` for one resource: the usage in the window,
rounded down, may not pass the account's share of the virtual capacity. -/
def checkAccountUsage (r : Resource) (a : Name) (weight : Int64)
    (usage : ExponentialMovingAverageAccumulator) : Except ResourceUsageError Unit :=
  if 0 ≤ weight ∧ 0 < r.totalWeight m.state then do
    let windowSize := (r.averageWindow m.config).toNat
    -- a 64-bit value times a 32-bit window stays below `2 ^ 128`
    let virtualNetworkCapacityInWindow := (r.virtualLimit m.state).toNat * windowSize
    let usedInWindow := usage.valueEx.toNat * windowSize / rateLimitingPrecision.toNat
    unless usedInWindow ≤
        maxUserUseInWindow virtualNetworkCapacityInWindow weight (r.totalWeight m.state) do
      throw (r.exceeded a)
  else pure ()

/-- One round of the loop of `add_transaction_usage`: the usage goes into the account's
averages, which are then checked against its share. -/
def addAccountTransactionUsage (a : Name) (cpuUsage netUsage : UInt64) (timeSlot : UInt32)
    (overrideChainCpuLimits : Bool) : Except ResourceUsageError ResourceUsageManager := do
  let usage ← m.getUsage a
  let limits ← (m.toLimitsManager.getAccountLimits a).mapError .limits
  let net ← addUsage usage.netUsage netUsage timeSlot m.config.accountNetUsageAverageWindow
  let cpu ← addUsage usage.cpuUsage cpuUsage timeSlot m.config.accountCpuUsageAverageWindow
  let usage := { usage with netUsage := net, cpuUsage := cpu }
  -- only the cpu check gives way to `override_chain_cpu_limits`
  unless overrideChainCpuLimits do m.checkAccountUsage .cpu a limits.cpuWeight usage.cpuUsage
  m.checkAccountUsage .net a limits.netWeight usage.netUsage
  pure (m.modifyUsage a usage)

/-- `add_transaction_usage(accounts, cpu_usage, net_usage, time_slot,
override_chain_cpu_limits)`. -/
def addTransactionUsage (accounts : List Name) (cpuUsage netUsage : UInt64) (timeSlot : UInt32)
    (overrideChainCpuLimits : Bool) : Except ResourceUsageError ResourceUsageManager := do
  let m ← accounts.foldlM (fun m a =>
    m.addAccountTransactionUsage a cpuUsage netUsage timeSlot overrideChainCpuLimits) m
  -- account for this transaction in the block and do not exceed those limits either
  let m := { m with state := { m.state with
    pendingCpuUsage := m.state.pendingCpuUsage + cpuUsage
    pendingNetUsage := m.state.pendingNetUsage + netUsage } }
  unless decide (m.state.pendingCpuUsage ≤ m.config.cpuLimitParameters.max) ||
      overrideChainCpuLimits do
    throw (.blockResourceExhausted "Block has insufficient cpu resources")
  unless m.state.pendingNetUsage ≤ m.config.netLimitParameters.max do
    throw (.blockResourceExhausted "Block has insufficient net resources")
  pure m

/-- The virtual capacity in the window, greylisted below `maximum_elastic_resource_multiplier`
when that is the smaller, and whether it was. -/
def virtualCapacityInWindow (r : Resource) (greylistLimit : UInt32) : ℕ × Bool :=
  let windowSize := (r.averageWindow m.config).toNat
  let virtualLimit := r.virtualLimit m.state
  if greylistLimit < maximumElasticResourceMultiplier then
    -- the greylisted limit is a 64-bit product, and may wrap
    let greylistedVirtualLimit := (r.limitParameters m.config).max * greylistLimit.toUInt64
    if greylistedVirtualLimit < virtualLimit then (windowSize * greylistedVirtualLimit.toNat, true)
    else (windowSize * virtualLimit.toNat, false)
  else (windowSize * virtualLimit.toNat, false)

/-- `arl.available`: what is left of the share, nothing once it is used up. -/
def availableInWindow (maxUse usedInWindow : ℕ) : Except ResourceUsageError Int64 :=
  if maxUse ≤ usedInWindow then pure 0 else downgradeCastInt64 (maxUse - usedInWindow)

/-- `arl.current_used`: the use decayed to the current time, when that is past the last
update. -/
def currentUsedAt (r : Resource) (acc : ExponentialMovingAverageAccumulator) (used : Int64) :
    Option UInt32 → Except ResourceUsageError Int64
  | some slot =>
    if slot > acc.lastOrdinal then do
      -- `window_size` is passed back as the 32-bit window it came from
      let historyUsage ← addUsage acc 0 slot (r.averageWindow m.config)
      downgradeCastInt64 (integerDivideCeil
        (historyUsage.valueEx.toNat * (r.averageWindow m.config).toNat) rateLimitingPrecision.toNat)
    else pure used
  | none => pure used

/-- `get_account_cpu_limit_ex` and `get_account_net_limit_ex`, which differ only in the resource
they read: the account's share of the virtual capacity in the window, what it has used of it
rounded up, and what is left. -/
def getAccountLimitEx (r : Resource) (name : Name) (greylistLimit : UInt32)
    (currentTime : Option UInt32) : Except ResourceUsageError (AccountResourceLimit × Bool) := do
  let usage ← m.getUsage name
  let limits ← (m.toLimitsManager.getAccountLimits name).mapError .limits
  let acc := r.usage usage
  let weight := r.weight limits
  if weight < 0 ∨ r.totalWeight m.state = 0 then
    return (⟨-1, -1, -1, acc.lastOrdinal, -1⟩, false)
  let windowSize := (r.averageWindow m.config).toNat
  let (capacity, greylisted) := m.virtualCapacityInWindow r greylistLimit
  let maxUse := maxUserUseInWindow capacity weight (r.totalWeight m.state)
  let usedInWindow := integerDivideCeil (acc.valueEx.toNat * windowSize) rateLimitingPrecision.toNat
  let available ← availableInWindow maxUse usedInWindow
  let used ← downgradeCastInt64 usedInWindow
  let max ← downgradeCastInt64 maxUse
  let currentUsed ← m.currentUsedAt r acc used currentTime
  return (⟨used, available, max, acc.lastOrdinal, currentUsed⟩, greylisted)

/-- `get_account_cpu_limit_ex(name, greylist_limit, current_time)`. -/
def getAccountCpuLimitEx (name : Name) (greylistLimit : UInt32) (currentTime : Option UInt32) :
    Except ResourceUsageError (AccountResourceLimit × Bool) :=
  m.getAccountLimitEx .cpu name greylistLimit currentTime

/-- `get_account_net_limit_ex(name, greylist_limit, current_time)`. -/
def getAccountNetLimitEx (name : Name) (greylistLimit : UInt32) (currentTime : Option UInt32) :
    Except ResourceUsageError (AccountResourceLimit × Bool) :=
  m.getAccountLimitEx .net name greylistLimit currentTime

/-- `get_account_cpu_limit` and `get_account_net_limit`: what is left in the window, with no
current time. -/
def getAccountLimit (r : Resource) (name : Name) (greylistLimit : UInt32) :
    Except ResourceUsageError (Int64 × Bool) := do
  let (arl, greylisted) ← m.getAccountLimitEx r name greylistLimit none
  pure (arl.available, greylisted)

/-- `get_account_cpu_limit(name, greylist_limit)`. -/
def getAccountCpuLimit (name : Name) (greylistLimit : UInt32) :
    Except ResourceUsageError (Int64 × Bool) :=
  m.getAccountLimit .cpu name greylistLimit

/-- `get_account_net_limit(name, greylist_limit)`. -/
def getAccountNetLimit (name : Name) (greylistLimit : UInt32) :
    Except ResourceUsageError (Int64 × Bool) :=
  m.getAccountLimit .net name greylistLimit

end ResourceUsageManager

/-! ### Reading the rows -/

namespace Resource

theorem exceeded_ne_limits (r : Resource) (a : Name) (e : LimitsError) :
    r.exceeded a ≠ .limits e := by
  cases r <;> nofun

theorem exceeded_ne_accumulator (r : Resource) (a : Name) (e : AccumulatorError) :
    r.exceeded a ≠ .accumulator e := by
  cases r <;> nofun

theorem exceeded_ne_blockResourceExhausted (r : Resource) (a : Name) (msg : String) :
    r.exceeded a ≠ .blockResourceExhausted msg := by
  cases r <;> nofun

/-- The error of a check names its resource. -/
theorem exceeded_inj {r r' : Resource} {a a' : Name} (h : r.exceeded a = r'.exceeded a') :
    r = r' := by
  cases r <;> cases r' <;> first | rfl | cases h

end Resource

section AddUsage

variable {acc acc' : ExponentialMovingAverageAccumulator} {units : UInt64}
  {ordinal windowSize : UInt32}

theorem addUsage_error {e : ResourceUsageError}
    (h : addUsage acc units ordinal windowSize = .error e) : ∃ e', e = .accumulator e' := by
  unfold addUsage at h
  split at h
  · cases h
  · next e' _ _ =>
    cases h
    exact ⟨e', rfl⟩

theorem addUsage_eq_ok (h : addUsage acc units ordinal windowSize = .ok acc') :
    ∃ x, (ExponentialMovingAverageAccumulator.add rateLimitingPrecision units ordinal
      windowSize).run acc = .ok x acc' := by
  unfold addUsage at h
  split at h
  · next x _ hrun =>
    cases h
    exact ⟨x, hrun⟩
  · cases h

theorem addUsage_lastOrdinal (h : addUsage acc units ordinal windowSize = .ok acc') :
    acc'.lastOrdinal = ordinal := by
  obtain ⟨x, hrun⟩ := addUsage_eq_ok h
  exact ExponentialMovingAverageAccumulator.add_lastOrdinal hrun

theorem addUsage_valueEx_of_lastOrdinal_eq (hord : acc.lastOrdinal = ordinal)
    (h : addUsage acc units ordinal windowSize = .ok acc') :
    acc'.valueEx.toNat = acc.valueEx.toNat +
      integerDivideCeil (units.toNat * rateLimitingPrecision.toNat) windowSize.toNat := by
  obtain ⟨x, hrun⟩ := addUsage_eq_ok h
  exact ExponentialMovingAverageAccumulator.add_valueEx_of_lastOrdinal_eq hord hrun

end AddUsage

theorem downgradeCastInt64_eq_ok {val : ℕ} {x : Int64} (h : downgradeCastInt64 val = .ok x) :
    val < 2 ^ 63 ∧ x.toInt = val := by
  obtain ⟨v, hv, rfl⟩ := map_eq_ok.mp h
  obtain ⟨hle, rfl⟩ := downgradeCast_eq_ok.mp (mapError_eq_ok.mp hv)
  have hlt : v < 2 ^ 63 := by omega
  exact ⟨hlt, Int64.toInt_ofNat_of_lt hlt⟩

/-- **The floor after a rounded-up contribution is within the ceiling before it**: adding
`⌈u * P / W⌉` to `v` takes `⌊v * W / P⌋` to at most `⌈v * W / P⌉ + u`, once `W ≤ P`. -/
theorem add_integerDivideCeil_mul_div_le {v u W P : ℕ} (hW : 0 < W) (hWP : W ≤ P) :
    (v + integerDivideCeil (u * P) W) * W / P ≤ integerDivideCeil (v * W) P + u := by
  have hP : 0 < P := lt_of_lt_of_le hW hWP
  -- the contribution overshoots `u * P` by less than one window
  have hc : integerDivideCeil (u * P) W * W < u * P + W := integerDivideCeil_mul_lt hW
  -- and the ceiling covers `v * W`
  have hv : v * W ≤ integerDivideCeil (v * W) P * P := le_integerDivideCeil_mul hP
  rw [← Nat.lt_succ_iff, Nat.div_lt_iff_lt_mul hP]
  calc (v + integerDivideCeil (u * P) W) * W
      = v * W + integerDivideCeil (u * P) W * W := Nat.add_mul _ _ _
    _ < integerDivideCeil (v * W) P * P + (u * P + W) := Nat.add_lt_add_of_le_of_lt hv hc
    _ ≤ integerDivideCeil (v * W) P * P + u * P + P := by omega
    _ = (integerDivideCeil (v * W) P + u).succ * P := by rw [Nat.succ_mul, Nat.add_mul]

namespace ResourceUsageManager

variable {m m' : ResourceUsageManager} {a : Name}

@[simp] theorem modifyUsage_config (usage : ResourceUsageObject) :
    (m.modifyUsage a usage).config = m.config := rfl

@[simp] theorem modifyUsage_state (usage : ResourceUsageObject) :
    (m.modifyUsage a usage).state = m.state := rfl

/-- Rewriting the rows of `a` leaves the first of them, rewritten. -/
theorem find?_map_modify (l : List ResourceUsageObject) {usage : ResourceUsageObject}
    (howner : usage.owner = a) :
    (l.map fun u => if u.owner = a then usage else u).find? (·.owner = a) =
      (l.find? (·.owner = a)).map fun _ => usage := by
  induction l with
  | nil => rfl
  | cons u l ih =>
    by_cases hu : u.owner = a
    · simp [hu, howner]
    · simp [hu, ih]

theorem getUsage_error {e : ResourceUsageError} (h : m.getUsage a = .error e) :
    e = .limits .unknownKey := by
  unfold getUsage at h
  split at h
  · cases h
  · cases h
    rfl

theorem getUsage_modifyUsage {usage usage' : ResourceUsageObject} (h : m.getUsage a = .ok usage)
    (howner : usage'.owner = a) : (m.modifyUsage a usage').getUsage a = .ok usage' := by
  unfold getUsage at h ⊢
  rw [modifyUsage, find?_map_modify _ howner]
  split at h
  · next hfind =>
    rw [hfind]
    rfl
  · cases h

/-- **What `update_account_usage` does to an account**: its row is read, and written back with
both averages at the slot. -/
theorem updateUsage_eq_ok {t : UInt32} (h : m.updateUsage a t = .ok m') :
    ∃ usage usage', m.getUsage a = .ok usage ∧ usage'.owner = a ∧
      (∀ r : Resource, (r.usage usage').lastOrdinal = t) ∧ m' = m.modifyUsage a usage' := by
  unfold updateUsage at h
  obtain ⟨usage, hu, h⟩ := bind_eq_ok.mp h
  obtain ⟨net, hnet, h⟩ := bind_eq_ok.mp h
  obtain ⟨cpu, hcpu, h⟩ := bind_eq_ok.mp h
  have howner : usage.owner = a := by
    unfold getUsage at hu
    split at hu
    · next hfind =>
      cases hu
      simpa using List.find?_some hfind
    · cases hu
  refine ⟨usage, { usage with netUsage := net, cpuUsage := cpu }, hu, howner, ?_,
    (pure_eq_ok.mp h).symm⟩
  intro r
  cases r
  · exact addUsage_lastOrdinal hcpu
  · exact addUsage_lastOrdinal hnet

theorem updateAccountUsage_singleton (t : UInt32) :
    m.updateAccountUsage [a] t = m.updateUsage a t := by
  simp only [updateAccountUsage, List.foldlM_cons, List.foldlM_nil, bind_pure]

/-! ### The report -/

theorem virtualCapacityInWindow_max (r : Resource) :
    m.virtualCapacityInWindow r maximumElasticResourceMultiplier =
      ((r.averageWindow m.config).toNat * (r.virtualLimit m.state).toNat, false) := by
  rw [virtualCapacityInWindow, if_neg (UInt32.lt_irrefl _)]

theorem availableInWindow_pos {maxUse used : ℕ} {available : Int64}
    (h : availableInWindow maxUse used = .ok available) (hpos : 0 < available) :
    (used : ℤ) + available.toInt = maxUse := by
  unfold availableInWindow at h
  split at h
  · -- a share used up is reported as nothing left
    obtain rfl := pure_eq_ok.mp h
    exact absurd hpos Int64.lt_irrefl
  · next hlt =>
    rw [(downgradeCastInt64_eq_ok h).2]
    omega

/-- **A positive reported limit is what is left of the share**: with no greylisting, it is the
account's share of the virtual capacity less its use in the window, rounded up. -/
theorem getAccountLimit_pos {r : Resource} {avail : Int64} {greylisted : Bool}
    (h : m.getAccountLimit r a maximumElasticResourceMultiplier = .ok (avail, greylisted))
    (havail : 0 < avail) :
    ∃ usage limits, m.getUsage a = .ok usage ∧ m.toLimitsManager.getAccountLimits a = .ok limits ∧
      ((integerDivideCeil ((r.usage usage).valueEx.toNat * (r.averageWindow m.config).toNat)
          rateLimitingPrecision.toNat : ℕ) : ℤ) + avail.toInt =
        maxUserUseInWindow ((r.averageWindow m.config).toNat * (r.virtualLimit m.state).toNat)
          (r.weight limits) (r.totalWeight m.state) := by
  obtain ⟨⟨arl, g⟩, hex, hpure⟩ := bind_eq_ok.mp h
  have havail' : arl.available = avail := congrArg Prod.fst (pure_eq_ok.mp hpure)
  unfold getAccountLimitEx at hex
  obtain ⟨usage, hu, hex⟩ := bind_eq_ok.mp hex
  obtain ⟨limits, hl, hex⟩ := bind_eq_ok.mp hex
  refine ⟨usage, limits, hu, mapError_eq_ok.mp hl, ?_⟩
  dsimp only at hex
  split at hex
  · -- the report of an unlimited account, `-1`, is not positive
    obtain ⟨rfl, -⟩ := Prod.mk.inj (pure_eq_ok.mp hex)
    subst havail'
    exact absurd havail (show ¬ (0 : Int64) < -1 by decide)
  · rw [virtualCapacityInWindow_max] at hex
    dsimp only at hex
    obtain ⟨available, havailable, hex⟩ := bind_eq_ok.mp hex
    obtain ⟨used, -, hex⟩ := bind_eq_ok.mp hex
    obtain ⟨max, -, hex⟩ := bind_eq_ok.mp hex
    obtain ⟨currentUsed, -, hex⟩ := bind_eq_ok.mp hex
    obtain ⟨rfl, -⟩ := Prod.mk.inj (pure_eq_ok.mp hex)
    subst havail'
    exact availableInWindow_pos havailable havail

/-! ### The check -/

theorem checkAccountUsage_error {r : Resource} {w : Int64}
    {acc : ExponentialMovingAverageAccumulator} {e : ResourceUsageError}
    (h : m.checkAccountUsage r a w acc = .error e) : e = r.exceeded a := by
  unfold checkAccountUsage at h
  split at h
  · dsimp only at h
    split at h
    · cases h
    · cases h
      rfl
  · cases h

theorem checkAccountUsage_ok {r : Resource} {w : Int64} {acc : ExponentialMovingAverageAccumulator}
    (h : acc.valueEx.toNat * (r.averageWindow m.config).toNat / rateLimitingPrecision.toNat ≤
      maxUserUseInWindow ((r.virtualLimit m.state).toNat * (r.averageWindow m.config).toNat) w
        (r.totalWeight m.state)) :
    m.checkAccountUsage r a w acc = .ok () := by
  unfold checkAccountUsage
  split
  · rw [if_pos h]
    rfl
  · rfl

/-- **Where a check error comes from**: the account's row and limits were read, the units went
into the resource's average, and the check of that average threw. -/
theorem addAccountTransactionUsage_exceeded {r : Resource} {cpuUsage netUsage : UInt64}
    {t : UInt32}
    (h : m.addAccountTransactionUsage a cpuUsage netUsage t false = .error (r.exceeded a)) :
    ∃ usage limits acc, m.getUsage a = .ok usage ∧
      m.toLimitsManager.getAccountLimits a = .ok limits ∧
      addUsage (r.usage usage) (r.units cpuUsage netUsage) t (r.averageWindow m.config) = .ok acc ∧
      m.checkAccountUsage r a (r.weight limits) acc = .error (r.exceeded a) := by
  unfold addAccountTransactionUsage at h
  -- the reads and the adds throw errors of their own
  obtain hu | ⟨usage, hu, h⟩ := bind_eq_error.mp h
  · exact absurd (getUsage_error hu) (r.exceeded_ne_limits a _)
  obtain hl | ⟨limits, hl, h⟩ := bind_eq_error.mp h
  · obtain ⟨e, -, he⟩ := mapError_eq_error.mp hl
    exact absurd he.symm (r.exceeded_ne_limits a e)
  obtain hnet | ⟨net, hnet, h⟩ := bind_eq_error.mp h
  · obtain ⟨e, he⟩ := addUsage_error hnet
    exact absurd he (r.exceeded_ne_accumulator a e)
  obtain hcpu | ⟨cpu, hcpu, h⟩ := bind_eq_error.mp h
  · obtain ⟨e, he⟩ := addUsage_error hcpu
    exact absurd he (r.exceeded_ne_accumulator a e)
  have hl := mapError_eq_ok.mp hl
  -- the cpu check, then the net one
  simp only [Bool.false_eq_true, if_false] at h
  obtain hc | ⟨_, -, h⟩ := bind_eq_error.mp h
  · obtain rfl : r = .cpu := Resource.exceeded_inj (checkAccountUsage_error hc)
    exact ⟨usage, limits, cpu, hu, hl, hcpu, hc⟩
  obtain hc | ⟨_, -, h⟩ := bind_eq_error.mp h
  · obtain rfl : r = .net := Resource.exceeded_inj (checkAccountUsage_error hc)
    exact ⟨usage, limits, net, hu, hl, hnet, hc⟩
  · cases h

theorem addTransactionUsage_exceeded {r : Resource} {cpuUsage netUsage : UInt64} {t : UInt32}
    (h : m.addTransactionUsage [a] cpuUsage netUsage t false = .error (r.exceeded a)) :
    m.addAccountTransactionUsage a cpuUsage netUsage t false = .error (r.exceeded a) := by
  unfold addTransactionUsage at h
  simp only [List.foldlM_cons, List.foldlM_nil, bind_pure] at h
  obtain h | ⟨m', -, h⟩ := bind_eq_error.mp h
  · exact h
  -- the block checks throw errors of their own
  repeat' split at h
  all_goals
    first
    | cases h
    | exact absurd (Except.error.inj h).symm (r.exceeded_ne_blockResourceExhausted a _)

/-! ### The report is sound for the check -/

/-- **A usage within a positive reported limit passes the account check.** After
`update_account_usage({a}, t)`, a usage no larger than the positive limit
`get_account_cpu_limit(a)` (resp. `get_account_net_limit(a)`) reports does not make
`add_transaction_usage({a}, ..., t, false)` throw `tx_cpu_usage_exceeded` (resp.
`tx_net_usage_exceeded`), for every window no longer than `rate_limiting_precision`. -/
theorem addTransactionUsage_within_limit (r : Resource) {m m₁ : ResourceUsageManager} {a : Name}
    {t : UInt32} {avail : Int64} {greylisted : Bool} {cpuUsage netUsage : UInt64}
    (hupdate : m.updateAccountUsage [a] t = .ok m₁)
    (hW : 0 < r.averageWindow m.config)
    (hWP : (r.averageWindow m.config).toNat ≤ rateLimitingPrecision.toNat)
    (hlimit : m₁.getAccountLimit r a maximumElasticResourceMultiplier = .ok (avail, greylisted))
    (havail : 0 < avail) (hunits : ((r.units cpuUsage netUsage).toNat : ℤ) ≤ avail.toInt) :
    m₁.addTransactionUsage [a] cpuUsage netUsage t false ≠ .error (r.exceeded a) := by
  intro hadd
  -- the update leaves both of the account's averages at the slot, and the rest as it was
  rw [updateAccountUsage_singleton] at hupdate
  obtain ⟨usage₀, usage₁, hu₀, howner, hslot, rfl⟩ := updateUsage_eq_ok hupdate
  have hu₁ : (m.modifyUsage a usage₁).getUsage a = .ok usage₁ := getUsage_modifyUsage hu₀ howner
  -- the report: a positive limit is the share less the use in the window, rounded up
  obtain ⟨usage, limits, hu, hl, hreport⟩ := getAccountLimit_pos hlimit havail
  obtain rfl : usage = usage₁ := Except.ok.inj (hu.symm.trans hu₁)
  -- the check that threw read the same row and limits
  obtain ⟨usage', limits', acc, hu', hl', hacc, hcheck⟩ :=
    addAccountTransactionUsage_exceeded (addTransactionUsage_exceeded hadd)
  obtain rfl : usage' = usage := Except.ok.inj (hu'.symm.trans hu)
  obtain rfl : limits' = limits := Except.ok.inj (hl'.symm.trans hl)
  simp only [modifyUsage_config, modifyUsage_state] at hreport hacc hcheck
  -- at the slot of the update the units go in whole
  have hvalue := addUsage_valueEx_of_lastOrdinal_eq (hslot r) hacc
  have hround := add_integerDivideCeil_mul_div_le (v := (r.usage usage').valueEx.toNat)
    (u := (r.units cpuUsage netUsage).toNat) (UInt32.lt_iff_toNat_lt.mp hW) hWP
  -- so the use in the window, rounded down, is within the share
  have hle : acc.valueEx.toNat * (r.averageWindow m.config).toNat / rateLimitingPrecision.toNat ≤
      maxUserUseInWindow ((r.virtualLimit m.state).toNat * (r.averageWindow m.config).toNat)
        (r.weight limits') (r.totalWeight m.state) := by
    rw [hvalue, Nat.mul_comm ((r.virtualLimit m.state).toNat)]
    omega
  have hok : (m.modifyUsage a usage').checkAccountUsage r a (r.weight limits') acc = .ok () :=
    checkAccountUsage_ok hle
  rw [hcheck] at hok
  cases hok

/-- One account, staked 10 of 10 with the configured window of a day of half-second slots,
whose usage is already at the slot. -/
def oneAccount : ResourceUsageManager :=
  ⟨[⟨⟨1⟩, false, -1, 10, -1⟩], [⟨⟨1⟩, ⟨0, 0, 0⟩, ⟨0, 0, 0⟩⟩], ⟨⟨0, 10, 0⟩, 0, 0, 0, 100⟩,
    ⟨⟨1000⟩, ⟨1000⟩, 172800, 172800⟩⟩

theorem addTransactionUsage_within_limit_oneAccount :
    oneAccount.updateAccountUsage [⟨1⟩] 0 = .ok oneAccount ∧
      0 < Resource.cpu.averageWindow oneAccount.config ∧
      (Resource.cpu.averageWindow oneAccount.config).toNat ≤ rateLimitingPrecision.toNat ∧
      oneAccount.getAccountLimit .cpu ⟨1⟩ maximumElasticResourceMultiplier =
        .ok (17280000, false) ∧
      (0 : Int64) < 17280000 ∧ ((Resource.cpu.units 5 0).toNat : ℤ) ≤ (17280000 : Int64).toInt ∧
      oneAccount.addTransactionUsage [⟨1⟩] 5 0 0 false ≠ .error (Resource.cpu.exceeded ⟨1⟩) := by
  have hupdate : oneAccount.updateAccountUsage [⟨1⟩] 0 = .ok oneAccount := by decide
  have hlimit : oneAccount.getAccountLimit .cpu ⟨1⟩ maximumElasticResourceMultiplier =
      .ok (17280000, false) := by decide
  have hW : 0 < Resource.cpu.averageWindow oneAccount.config := by decide
  have hWP : (Resource.cpu.averageWindow oneAccount.config).toNat ≤
      rateLimitingPrecision.toNat := by decide
  have havail : (0 : Int64) < 17280000 := by decide
  have hunits : ((Resource.cpu.units 5 0).toNat : ℤ) ≤ (17280000 : Int64).toInt := by decide
  exact ⟨hupdate, hW, hWP, hlimit, havail, hunits,
    addTransactionUsage_within_limit .cpu hupdate hW hWP hlimit havail hunits⟩

/-- One account with no cpu weight, its use (6 at the precision) already past its share of
nothing. -/
def overAccount : ResourceUsageManager :=
  ⟨[⟨⟨1⟩, false, -1, 0, -1⟩], [⟨⟨1⟩, ⟨0, 0, 0⟩, ⟨0, 6, 1⟩⟩], ⟨⟨0, 1, 0⟩, 0, 0, 0, 100⟩,
    ⟨⟨1000⟩, ⟨1000⟩, 172800, 172800⟩⟩

/-- An account over its share is reported `0` left, and a usage of `0` then fails the check:
the report rounds the use up to 2, the check rounds it down to 1, and the share is 0. -/
theorem addTransactionUsage_overAccount_throws :
    overAccount.updateAccountUsage [⟨1⟩] 0 = .ok overAccount ∧
      overAccount.getAccountCpuLimit ⟨1⟩ maximumElasticResourceMultiplier = .ok (0, false) ∧
      overAccount.addTransactionUsage [⟨1⟩] 0 0 0 false = .error (.txCpuUsageExceeded ⟨1⟩) :=
  ⟨by decide, by decide, by decide⟩

end ResourceUsageManager

end Eosio.Chain
