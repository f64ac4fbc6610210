import Mathlib
import TaurusNode.Chain.Authority

/-!
# The account limits of the resource limits manager

A model of the account-limit half of `eosio::chain::resource_limits::resource_limits_manager`
(libraries/chain/resource_limits.cpp): the `resource_limits_object` rows, each either the limits
in force for its owner or a `pending` copy waiting for the next boundary, and the totals of the
`resource_limits_state_object` that weigh each account's share.

* `initialize_account` creates the account's limits, unlimited (`-1`), and its usage row;
* `set_account_limits` writes the new limits into the pending copy, created from the limits in
  force when there is none, and says whether the RAM limit went down;
* `process_account_limit_updates` moves each pending copy, lowest owner first, into the limits
  in force, taking the old positive values out of the totals and putting the new ones in, with
  the source's two `rate_limiting_state_inconsistent` checks.

The rows are kept in creation order, the `by_owner` index `(pending, owner)` being searched by
key; `lower_bound(make_tuple(true))` is the pending row of least owner. A call that throws is
`.error`, and chainbase rolls its changes back.
-/

namespace Eosio.Chain

/-- `resource_limits_object`, without its `id`. -/
structure ResourceLimitsObject where
  owner : Name
  pending : Bool
  netWeight : Int64
  cpuWeight : Int64
  ramBytes : Int64
deriving DecidableEq, Repr

/-- The key of the `by_owner` index. -/
def ResourceLimitsObject.byOwner (o : ResourceLimitsObject) : Bool × Name :=
  (o.pending, o.owner)

/-- The totals of `resource_limits_state_object`; its usage averages play no part here. -/
structure ResourceLimitsState where
  totalNetWeight : UInt64
  totalCpuWeight : UInt64
  totalRamBytes : UInt64
deriving DecidableEq, Repr

/-- The tables the account limits live in: the limit rows, the owners of the
`resource_usage_object` rows, and the state object. -/
structure ResourceLimitsManager where
  limits : List ResourceLimitsObject
  usageOwners : List Name
  state : ResourceLimitsState
deriving DecidableEq, Repr

/-- How a call of the manager fails. -/
inductive LimitsError
  /-- chainbase `create` on a key its unique index already holds. -/
  | uniquenessViolated
  /-- chainbase `get` of a key no row has. -/
  | unknownKey
  /-- `rate_limiting_state_inconsistent`: "underflow when reverting old value to" `which`. -/
  | underflow (which : String)
  /-- `rate_limiting_state_inconsistent`: "overflow when applying new value to" `which`. -/
  | overflow (which : String)
deriving DecidableEq, Repr

namespace ResourceLimitsManager

/-- A manager with no account. -/
def empty : ResourceLimitsManager :=
  ⟨[], [], ⟨0, 0, 0⟩⟩

variable (m : ResourceLimitsManager)

/-- `find<resource_limits_object, by_owner>(make_tuple(pending, owner))`. -/
def findByOwner (pending : Bool) (owner : Name) : Option ResourceLimitsObject :=
  m.limits.find? fun o => o.byOwner = (pending, owner)

/-- `get<resource_limits_object, by_owner>(make_tuple(pending, owner))`: throws when there is no
such row. -/
def getByOwner (pending : Bool) (owner : Name) : Except LimitsError ResourceLimitsObject :=
  match m.findByOwner pending owner with
  | some o => pure o
  | none => throw .unknownKey

/-- `initialize_account(account)`: limits unlimited, and a usage row. -/
def initializeAccount (account : Name) : Except LimitsError ResourceLimitsManager :=
  if (m.findByOwner false account).isSome || m.usageOwners.contains account then
    .error .uniquenessViolated
  else
    .ok { m with
      limits := m.limits ++ [⟨account, false, -1, -1, -1⟩]
      usageOwners := m.usageOwners ++ [account] }

/-- `get_or_create_pending_account_limits(account)`: the pending copy, created from the limits in
force when there is none. -/
def getOrCreatePendingAccountLimits (account : Name) :
    Except LimitsError (ResourceLimitsManager × ResourceLimitsObject) :=
  match m.findByOwner true account with
  | some pendingLimits => .ok (m, pendingLimits)
  | none =>
    match m.findByOwner false account with
    | none => .error .unknownKey
    | some limits =>
      let pendingLimits : ResourceLimitsObject :=
        ⟨limits.owner, true, limits.netWeight, limits.cpuWeight, limits.ramBytes⟩
      .ok ({ m with limits := m.limits ++ [pendingLimits] }, pendingLimits)

/-- `modify` of the row with key `(pending, owner)`. -/
def modifyByOwner (pending : Bool) (owner : Name)
    (f : ResourceLimitsObject → ResourceLimitsObject) : ResourceLimitsManager :=
  { m with limits := m.limits.map fun o => if o.byOwner = (pending, owner) then f o else o }

/-- `set_account_limits(account, ram_bytes, net_weight, cpu_weight)`: the new limits go into the
pending copy; the result says whether the RAM limit decreased. -/
def setAccountLimits (account : Name) (ramBytes netWeight cpuWeight : Int64) :
    Except LimitsError (ResourceLimitsManager × Bool) := do
  let (m, limits) ← m.getOrCreatePendingAccountLimits account
  let decreasedLimit := if 0 ≤ ramBytes then limits.ramBytes < 0 ∨ ramBytes < limits.ramBytes else false
  let m := m.modifyByOwner true account fun o =>
    { o with ramBytes := ramBytes, netWeight := netWeight, cpuWeight := cpuWeight }
  pure (m, decreasedLimit)

end ResourceLimitsManager

/-- The first statement of `update_state_and_value`: a positive old value leaves the total,
which must hold it. -/
def revertOldValue (total : UInt64) (value : Int64) (which : String) : Except LimitsError UInt64 :=
  if 0 < value then
    if value.toUInt64 ≤ total then pure (total - value.toUInt64) else throw (.underflow which)
  else pure total

/-- The second statement of `update_state_and_value`: a positive new value goes into the total,
which must not pass `UINT64_MAX`. -/
def applyNewValue (total : UInt64) (pendingValue : Int64) (which : String) : Except LimitsError UInt64 :=
  if 0 < pendingValue then
    if pendingValue.toUInt64 ≤ 18446744073709551615 - total then pure (total + pendingValue.toUInt64)
    else throw (.overflow which)
  else pure total

/-- `update_state_and_value(total, value, pending_value, which)`: the new total; the value becomes
`pending_value`. -/
def updateStateAndValue (total : UInt64) (value pendingValue : Int64) (which : String) :
    Except LimitsError UInt64 := do
  let total ← revertOldValue total value which
  applyNewValue total pendingValue which

namespace ResourceLimitsManager

variable (m : ResourceLimitsManager)

/-- One round of the loop of `process_account_limit_updates`: the pending row `itr` goes into the
limits in force of its owner, and is removed. -/
def applyPending (itr : ResourceLimitsObject) : Except LimitsError ResourceLimitsManager := do
  let actual ← m.getByOwner false itr.owner
  let totalRamBytes ← updateStateAndValue m.state.totalRamBytes actual.ramBytes itr.ramBytes "ram_bytes"
  let totalCpuWeight ← updateStateAndValue m.state.totalCpuWeight actual.cpuWeight itr.cpuWeight "cpu_weight"
  let totalNetWeight ← updateStateAndValue m.state.totalNetWeight actual.netWeight itr.netWeight "net_weight"
  let m := m.modifyByOwner false itr.owner fun rlo =>
    { rlo with ramBytes := itr.ramBytes, cpuWeight := itr.cpuWeight, netWeight := itr.netWeight }
  pure { m with
    limits := m.limits.erase itr
    state := ⟨totalNetWeight, totalCpuWeight, totalRamBytes⟩ }

/-- The loop of `process_account_limit_updates`, one pending row per unit of fuel: the row of
`lower_bound(make_tuple(true))` in the `by_owner` order is the pending row of least owner. -/
def processLoop : ℕ → ResourceLimitsManager → Except LimitsError ResourceLimitsManager
  | 0, m => pure m
  | fuel + 1, m =>
    match (m.limits.filter (·.pending)).argmin (·.owner.value.toNat) with
    | none => pure m
    | some itr => do processLoop fuel (← m.applyPending itr)

/-- `process_account_limit_updates()`: every round removes a row, so there are never more rounds
than rows. -/
def processAccountLimitUpdates : Except LimitsError ResourceLimitsManager :=
  processLoop m.limits.length m

end ResourceLimitsManager

/-- The calls on the account limits. -/
inductive LimitsCall
  | initializeAccount (account : Name)
  | setAccountLimits (account : Name) (ramBytes netWeight cpuWeight : Int64)
  | processAccountLimitUpdates
deriving DecidableEq, Repr

/-- One call; a call that throws changes nothing. -/
def LimitsCall.apply (m : ResourceLimitsManager) : LimitsCall → Except LimitsError ResourceLimitsManager
  | .initializeAccount account => m.initializeAccount account
  | .setAccountLimits account ramBytes netWeight cpuWeight =>
    (·.1) <$> m.setAccountLimits account ramBytes netWeight cpuWeight
  | .processAccountLimitUpdates => m.processAccountLimitUpdates

/-- The states the calls reach from a manager with no account, in any order and with any
arguments; a call that throws is rolled back and leaves the state where it was. -/
inductive LimitsReachable : ResourceLimitsManager → Prop
  | empty : LimitsReachable ResourceLimitsManager.empty
  | call {m m' : ResourceLimitsManager} (c : LimitsCall) :
      LimitsReachable m → c.apply m = .ok m' → LimitsReachable m'

end Eosio.Chain
