import Mathlib
import TaurusNode.Chain.ResourceUsage

/-!
# The elastic block limits

At each block `process_block_usage` (libraries/chain/resource_limits.cpp) adds the block's pending
cpu and net usage to the block averages and moves each virtual limit with `update_elastic_limit`:
multiplied by `contract_rate` when the average is above `target` and by `expand_rate` otherwise,
then clamped to the band `[max, max * max_multiplier]`.

* `updateElasticLimit_eq`: when `max * max_multiplier` and the products the rates make of the
  limits in the band fit in 64 bits (`ElasticLimits.Fits`), the update of a limit in the band
  does not throw, and returns the clamped product;
* `updateElasticLimit_inBand`: that value is in the band, whatever the average usage;
* `limitsInBand_reachable`: so, from a state whose virtual limits are in their bands, every run of
  blocks keeps them there, whatever the usage the blocks' transactions leave pending.

`elastic_limit_parameters::validate()` checks only the periods and the denominators of the rates.
It accepts parameters for which `max * max_multiplier` wraps: with `max = 2 ^ 63`, a multiplier of
`2` and both rates `1/1`, the update of the limit `2 ^ 63` returns `0`
(`updateElasticLimit_wraps`). With a large numerator, the ratio's `operator*` throws
`rate_limiting_state_inconsistent` instead, and so does `process_block_usage`. The parameters the
controller sets from the chain configuration fit (`chainLimitParameters_fits`).

A call that throws is `.error`; chainbase rolls back what the block changed.
-/

namespace Eosio.Chain

open Fallible

/-- `elastic_limit_parameters` with every field. `ElasticLimitParameters` is its `max`, the field
the usage checks read; the elastic update reads the others. -/
structure ElasticLimits extends ElasticLimitParameters where
  /-- The desired usage. -/
  target : UInt64
  /-- The number of aggregation periods that contribute to the average usage. -/
  periods : UInt32
  /-- The multiplier by which virtual space can oversell usage when uncongested. -/
  maxMultiplier : UInt32
  /-- The rate at which a congested resource contracts its limit. -/
  contractRate : Ratio
  /-- The rate at which an uncongested resource expands its limits. -/
  expandRate : Ratio
deriving DecidableEq, Repr

namespace ElasticLimits

/-- `elastic_limit_parameters::validate()`. -/
def validate (p : ElasticLimits) : Except AccumulatorError Unit := do
  unless p.periods > 0 do
    throw (.resourceLimitException "elastic limit parameter 'periods' cannot be zero")
  unless p.contractRate.denominator > 0 do
    throw (.resourceLimitException
      "elastic limit parameter 'contract_rate' is not a well-defined ratio")
  unless p.expandRate.denominator > 0 do
    throw (.resourceLimitException
      "elastic limit parameter 'expand_rate' is not a well-defined ratio")

/-- The top of the band, `max * max_multiplier`, as a natural. -/
def bandTop (p : ElasticLimits) : ℕ := p.max.toNat * p.maxMultiplier.toNat

/-- A limit in the band `[max, max * max_multiplier]`, the product taken without wrapping. -/
def InBand (p : ElasticLimits) (v : UInt64) : Prop := p.max.toNat ≤ v.toNat ∧ v.toNat ≤ p.bandTop

instance instDecidableInBand (p : ElasticLimits) (v : UInt64) : Decidable (p.InBand v) :=
  inferInstanceAs (Decidable (_ ∧ _))

/-- The parameters under which the update neither wraps nor throws: the top of the band, and
its products with both rates, fit in 64 bits. -/
structure Fits (p : ElasticLimits) : Prop where
  bandTop : p.bandTop < 2 ^ 64
  contract : p.bandTop * p.contractRate.numerator < 2 ^ 64
  expand : p.bandTop * p.expandRate.numerator < 2 ^ 64

end ElasticLimits

/-- The parameters the controller passes to `set_block_parameters` for a resource whose chain
configuration has the maximum `max` and the target `target`; the defaults of
`resource_limits_config_object` are these too. -/
def chainLimitParameters (target : UInt64) (max periods : UInt32) : ElasticLimits :=
  { max := max.toUInt64, target, periods, maxMultiplier := maximumElasticResourceMultiplier,
    contractRate := ⟨99, 100⟩, expandRate := ⟨1000, 999⟩ }

/-- The default `cpu_limit_parameters`: a target of 10% of `default_max_block_cpu_usage`. -/
def defaultCpuLimitParameters : ElasticLimits := chainLimitParameters 20000 200000 120

/-- The default `net_limit_parameters`: a target of 10% of `default_max_block_net_usage`. -/
def defaultNetLimitParameters : ElasticLimits := chainLimitParameters 104857 1048576 120

/-- `update_elastic_limit(current_limit, average_usage, params)`. -/
def updateElasticLimit (currentLimit averageUsage : UInt64) (params : ElasticLimits) :
    Except AccumulatorError UInt64 := do
  let result ←
    if averageUsage > params.target then mulRatio 64 currentLimit.toNat params.contractRate
    else mulRatio 64 currentLimit.toNat params.expandRate
  pure (min (max (UInt64.ofNat result) params.max) (params.max * params.maxMultiplier.toUInt64))

/-- `process_block_usage` for the resources it updates: the block averages beside the state
object of `ResourceUsage`. -/
structure ResourceLimitsBlockState extends ResourceLimitsStateObject where
  averageBlockNetUsage : ExponentialMovingAverageAccumulator
  averageBlockCpuUsage : ExponentialMovingAverageAccumulator
deriving DecidableEq, Repr

/-- The block parameters of `resource_limits_config_object`. -/
structure BlockLimitsConfig where
  cpuLimitParameters : ElasticLimits
  netLimitParameters : ElasticLimits
deriving DecidableEq, Repr

/-- One half of `process_block_usage`: `average.add(pending, block_num, params.periods)`, then
`update_elastic_limit` of the virtual limit against the new average. The cpu and net halves are
this at their own fields. -/
def processResourceUsage (pending limit : UInt64) (average : ExponentialMovingAverageAccumulator)
    (params : ElasticLimits) (blockNum : UInt32) :
    Except ResourceUsageError (ExponentialMovingAverageAccumulator × UInt64) := do
  let average ← addUsage average pending blockNum params.periods
  let limit ← (updateElasticLimit limit (average.average rateLimitingPrecision) params).mapError
    .accumulator
  pure (average, limit)

/-- `resource_limits_manager::process_block_usage(block_num)`: apply pending usage, update
virtual limits and reset the pending. -/
def processBlockUsage (config : BlockLimitsConfig) (blockNum : UInt32)
    (s : ResourceLimitsBlockState) : Except ResourceUsageError ResourceLimitsBlockState := do
  let (cpuAverage, cpuLimit) ← processResourceUsage s.pendingCpuUsage s.virtualCpuLimit
    s.averageBlockCpuUsage config.cpuLimitParameters blockNum
  let (netAverage, netLimit) ← processResourceUsage s.pendingNetUsage s.virtualNetLimit
    s.averageBlockNetUsage config.netLimitParameters blockNum
  pure { s with
    averageBlockCpuUsage := cpuAverage, virtualCpuLimit := cpuLimit, pendingCpuUsage := 0,
    averageBlockNetUsage := netAverage, virtualNetLimit := netLimit, pendingNetUsage := 0 }

/-- The states a run of blocks reaches from `s₀`: each block processed by `process_block_usage`,
and between two blocks any usage left pending by `add_transaction_usage`. -/
inductive BlocksReachable (config : BlockLimitsConfig) (s₀ : ResourceLimitsBlockState) :
    ResourceLimitsBlockState → Prop
  | start : BlocksReachable config s₀ s₀
  | processBlockUsage {s s' : ResourceLimitsBlockState} {blockNum : UInt32} :
      BlocksReachable config s₀ s → processBlockUsage config blockNum s = .ok s' →
      BlocksReachable config s₀ s'
  | addPendingUsage {s : ResourceLimitsBlockState} (cpuUsage netUsage : UInt64) :
      BlocksReachable config s₀ s →
      BlocksReachable config s₀ { s with pendingCpuUsage := cpuUsage, pendingNetUsage := netUsage }

/-- Both virtual limits in their bands. -/
def LimitsInBand (config : BlockLimitsConfig) (s : ResourceLimitsBlockState) : Prop :=
  config.cpuLimitParameters.InBand s.virtualCpuLimit ∧
    config.netLimitParameters.InBand s.virtualNetLimit

/-! ### One update -/

section Update

variable {p : ElasticLimits}

/-- Below the top of the band, the ratio's check passes when the top times the numerator fits. -/
theorem mulRatio_of_le {value : ℕ} {r : Ratio} (hfit : p.bandTop * r.numerator < 2 ^ 64)
    (hvalue : value ≤ p.bandTop) : mulRatio 64 value r = .ok (value * r.numerator / r.denominator) := by
  refine mulRatio_eq_ok.mpr ⟨?_, rfl⟩
  rcases Nat.eq_zero_or_pos r.numerator with hzero | hpos
  · exact .inl hzero
  · right
    rw [Nat.le_div_iff_mul_le hpos]
    have hprod : value * r.numerator ≤ p.bandTop * r.numerator := Nat.mul_le_mul_right _ hvalue
    omega

/-- Without wrapping, the machine product `max * max_multiplier` is the top of the band. -/
theorem toNat_bandTop (hfits : p.Fits) : (p.max * p.maxMultiplier.toUInt64).toNat = p.bandTop := by
  rw [UInt64.toNat_mul, UInt32.toNat_toUInt64]
  exact Nat.mod_eq_of_lt hfits.bandTop

/-- **What the update computes**: on parameters that fit and a limit below the top of the band,
`update_elastic_limit` does not throw, and clamps the rate's product into the band. -/
theorem updateElasticLimit_eq (hfits : p.Fits) {current : UInt64}
    (hcur : current.toNat ≤ p.bandTop) (averageUsage : UInt64) :
    updateElasticLimit current averageUsage p =
      .ok (min (max (UInt64.ofNat (current.toNat *
          (if averageUsage > p.target then p.contractRate else p.expandRate).numerator /
          (if averageUsage > p.target then p.contractRate else p.expandRate).denominator)) p.max)
        (p.max * p.maxMultiplier.toUInt64)) := by
  unfold updateElasticLimit
  split_ifs with hcongested
  · rw [mulRatio_of_le hfits.contract hcur, ok_bind]
    rfl
  · rw [mulRatio_of_le hfits.expand hcur, ok_bind]
    rfl

/-- **The clamp lands in the band** when the band is not empty. -/
theorem inBand_clamp (hfits : p.Fits) (hband : p.max.toNat ≤ p.bandTop) (x : UInt64) :
    p.InBand (min (max x p.max) (p.max * p.maxMultiplier.toUInt64)) := by
  have htop := toNat_bandTop hfits
  constructor
  · rw [UInt64.toNat_min, UInt64.toNat_max, htop]
    omega
  · rw [UInt64.toNat_min, htop]
    exact Nat.min_le_right _ _

theorem updateElasticLimit_inBand (hfits : p.Fits) {current : UInt64} (hcur : p.InBand current)
    (averageUsage : UInt64) :
    ∃ r, updateElasticLimit current averageUsage p = .ok r ∧ p.InBand r :=
  ⟨_, updateElasticLimit_eq hfits hcur.2 averageUsage,
    inBand_clamp hfits (hcur.1.trans hcur.2) _⟩

end Update

/-! ### Runs of blocks -/

/-- Whatever the half of `process_block_usage` leaves as the limit is in the band. -/
theorem processResourceUsage_inBand {p : ElasticLimits} (hfits : p.Fits) {pending limit : UInt64}
    {average average' : ExponentialMovingAverageAccumulator} {blockNum : UInt32} {limit' : UInt64}
    (hlimit : p.InBand limit)
    (h : processResourceUsage pending limit average p blockNum = .ok (average', limit')) :
    p.InBand limit' := by
  unfold processResourceUsage at h
  obtain ⟨a, -, h⟩ := bind_eq_ok.mp h
  obtain ⟨r, hupdate, h⟩ := bind_eq_ok.mp h
  obtain ⟨r', hr', hin⟩ := updateElasticLimit_inBand hfits hlimit (a.average rateLimitingPrecision)
  -- the update did not throw, so its value is the one `mapError` passed on
  have hr : r' = r := Except.ok.inj (hr'.symm.trans (mapError_eq_ok.mp hupdate))
  have hlimit' : r = limit' := (Prod.mk.inj (pure_eq_ok.mp h)).2
  rw [← hlimit', ← hr]
  exact hin

/-- **One block keeps both virtual limits in their bands.** -/
theorem limitsInBand_processBlockUsage {config : BlockLimitsConfig}
    (hcpu : config.cpuLimitParameters.Fits) (hnet : config.netLimitParameters.Fits)
    {s s' : ResourceLimitsBlockState} {blockNum : UInt32} (hs : LimitsInBand config s)
    (h : processBlockUsage config blockNum s = .ok s') : LimitsInBand config s' := by
  unfold processBlockUsage at h
  obtain ⟨⟨cpuAverage, cpuLimit⟩, hcpuStep, h⟩ := bind_eq_ok.mp h
  obtain ⟨⟨netAverage, netLimit⟩, hnetStep, h⟩ := bind_eq_ok.mp h
  have hs' := (pure_eq_ok.mp h).symm
  subst hs'
  exact ⟨processResourceUsage_inBand hcpu hs.1 hcpuStep,
    processResourceUsage_inBand hnet hs.2 hnetStep⟩

/-- **Every run of blocks keeps both virtual limits in their bands**, by induction on the run:
a block is `limitsInBand_processBlockUsage`, and pending usage leaves the limits alone. -/
theorem limitsInBand_reachable {config : BlockLimitsConfig}
    (hcpu : config.cpuLimitParameters.Fits) (hnet : config.netLimitParameters.Fits)
    {s₀ s : ResourceLimitsBlockState} (h₀ : LimitsInBand config s₀)
    (h : BlocksReachable config s₀ s) : LimitsInBand config s := by
  induction h with
  | start => exact h₀
  | processBlockUsage _ hstep ih => exact limitsInBand_processBlockUsage hcpu hnet ih hstep
  | addPendingUsage _ _ _ ih => exact ih

/-- The parameters taken from a chain configuration fit: a maximum below `2 ^ 32`, the multiplier
`1000` and the rates `99/100` and `1000/999` keep every product below `2 ^ 52`. -/
theorem chainLimitParameters_fits (target : UInt64) (max periods : UInt32) :
    (chainLimitParameters target max periods).Fits := by
  have hmax : max.toNat < 2 ^ 32 := max.toNat_lt
  have htop : (chainLimitParameters target max periods).bandTop = max.toNat * 1000 := by
    simp [ElasticLimits.bandTop, chainLimitParameters, maximumElasticResourceMultiplier]
  refine ⟨?_, ?_, ?_⟩
  · rw [htop]
    omega
  · rw [htop]
    show max.toNat * 1000 * 99 < 2 ^ 64
    omega
  · rw [htop]
    show max.toNat * 1000 * 1000 < 2 ^ 64
    omega

/-! ### The band over every run -/

theorem updateElasticLimit_stays_inBand :
    (∀ p : ElasticLimits, p.Fits → ∀ currentLimit : UInt64, p.InBand currentLimit →
      ∀ averageUsage : UInt64,
        ∃ r, updateElasticLimit currentLimit averageUsage p = .ok r ∧ p.InBand r) ∧
    (∀ config : BlockLimitsConfig, config.cpuLimitParameters.Fits →
      config.netLimitParameters.Fits → ∀ s₀ s : ResourceLimitsBlockState,
        LimitsInBand config s₀ → BlocksReachable config s₀ s → LimitsInBand config s) :=
  ⟨fun _ hfits _ hcur averageUsage => updateElasticLimit_inBand hfits hcur averageUsage,
    fun _ hcpu hnet _ _ h₀ h => limitsInBand_reachable hcpu hnet h₀ h⟩

theorem updateElasticLimit_stays_inBand_default :
    defaultCpuLimitParameters.Fits ∧ defaultCpuLimitParameters.InBand 200000 ∧
      ∃ r, updateElasticLimit 200000 0 defaultCpuLimitParameters = .ok r ∧
        defaultCpuLimitParameters.InBand r :=
  ⟨chainLimitParameters_fits _ _ _, by decide,
    updateElasticLimit_stays_inBand.1 _ (chainLimitParameters_fits _ _ _) 200000 (by decide) 0⟩

/-- Parameters that `validate()` accepts, whose `max * max_multiplier` is `2 ^ 64`. -/
def wrappingLimitParameters : ElasticLimits :=
  { max := 0x8000000000000000, target := 0, periods := 1, maxMultiplier := 2, contractRate := ⟨1, 1⟩,
    expandRate := ⟨1, 1⟩ }

/-- **The top of the band wraps**: the limit `2 ^ 63`, in the band `[2 ^ 63, 2 ^ 64]`, is
updated to `0`, the machine product `max * max_multiplier` being `0`. -/
theorem updateElasticLimit_wraps :
    wrappingLimitParameters.validate = .ok () ∧ wrappingLimitParameters.InBand 0x8000000000000000 ∧
      updateElasticLimit 0x8000000000000000 0 wrappingLimitParameters = .ok 0 ∧
      ¬ wrappingLimitParameters.InBand 0 := by
  refine ⟨rfl, ?_, ?_, ?_⟩
  · decide
  · rfl
  · decide

end Eosio.Chain
