import Mathlib
import TaurusNode.Chain.ResourceUsage
import TaurusNode.Lib.KeyedList
import TaurusNode.Lib.Fallible

/-!
# Subjective billing

A model of `subjective_billing` (plugins/producer_plugin/include/eosio/producer_plugin/
subjective_billing.hpp). The CPU time billed to transactions that may still succeed is kept
twice: per transaction in `_trx_cache_index`, and per account as `pending_cpu_us` in
`_account_subjective_bill_cache`; the part billed in the pending block is also kept per account
in `_block_subjective_bill_cache`, which `abort_block` clears.

* `Inv`: each account's `pending_cpu_us` is the sum of the bills of its transactions (0 when the
  account has no entry), its block bill is at most that, and the block bills are empty when no
  `subjective_bill` in the pending block has been made since the last `abort_block`.
* Each call keeps `Inv` (`BillingCall.inv_exec`), when a call that removes bills comes after an
  `abort_block` that follows every `subjective_bill` in the pending block (`BillingCall.Ordered`),
  and the bills stay below `2^64` in all; so does every such run (`inv_runCalls`,
  `pendingCpuUs_eq_billed`). A removal takes from `pending_cpu_us` a bill counted in it
  (`Inv.bill_le`), so the subtraction does not wrap, and `get_subjective_bill` does not throw its
  logic error (`Inv.getSubjectiveBill_ne_logicError`).
* Without the bound, `pending_cpu_us` wraps: `2^32 + 2` transactions of one account billed the most
  a `uint32_t` holds leave it at `2^32 - 2` (`pendingCpuUs_wraps`).

Modelled as: the unordered maps are functions to `Option`; `_disabled_accounts` is a list;
`fc::time_point` and `fc::microseconds` are their `int64_t` counts. A block is the ids of its
packed transactions. `remove_expired` reads the clock to stop at its deadline: how many entries it
gets to before the deadline passes is a parameter.
-/

namespace Eosio

open Fallible Chain

/-- `subjective_billing::subjective_time_interval_ms`. -/
def subjectiveTimeIntervalMs : UInt32 := 5000

/-- `subjective_billing::expired_accumulator_average_window`: a day of intervals. -/
def expiredAccumulatorAverageWindow : UInt32 := 24 * 60 * 60 * 1000 / subjectiveTimeIntervalMs

/-- What `subjective_billing` throws. -/

inductive SubjectiveBillingError
  /-- `tx_resource_exhaustion`, with its message -/
  | txResourceExhaustion (msg : String)
  /-- what the decaying accumulator throws -/
  | accumulator (e : AccumulatorError)
deriving DecidableEq, Repr

/-- `subjective_billing::trx_cache_entry`. -/

structure TrxCacheEntry (T A : Type) where
  trxId : T
  account : A
  subjectiveCpuBill : UInt32
  expiry : Int64
deriving DecidableEq, Repr

/-- `subjective_billing::subjective_billing_info`, default-constructed by `operator[]` with no
pending time and an empty accumulator. -/

structure SubjectiveBillingInfo where
  pendingCpuUs : UInt64 := 0
  expiredAccumulator : ExponentialDecayAccumulator := ⟨0, 0⟩
deriving DecidableEq, Repr

/-- `exponential_decay_accumulator::value_at(ordinal, window_size)` of the default precision. -/
def valueAt (a : ExponentialDecayAccumulator) (ordinal windowSize : UInt32) :
    Except SubjectiveBillingError UInt64 :=
  ((fun v => integerDivideCeil v rateLimitingPrecision) <$> a.valueExAt ordinal windowSize).mapError
    .accumulator

/-- `subjective_billing_info::empty(time_ordinal)`. -/
def SubjectiveBillingInfo.empty (info : SubjectiveBillingInfo) (timeOrdinal : UInt32) :
    Except SubjectiveBillingError Bool :=
  (fun v => info.pendingCpuUs == 0 && v == 0) <$>
    valueAt info.expiredAccumulator timeOrdinal expiredAccumulatorAverageWindow

/-- The fields of `subjective_billing`. -/

structure SubjectiveBilling (T A : Type) where
  disabled : Bool
  trxCacheIndex : List (TrxCacheEntry T A)
  accountSubjectiveBillCache : A → Option SubjectiveBillingInfo
  blockSubjectiveBillCache : A → Option UInt64
  disabledAccounts : List A

namespace SubjectiveBilling

variable {T A : Type}

/-- A `subjective_billing` as constructed. -/
def initial : SubjectiveBilling T A := ⟨false, [], fun _ => none, fun _ => none, []⟩

/-- `time_ordinal_for(t)`: the interval of `t`; the division is of the count as a `uint64_t`. -/
def timeOrdinalFor (t : Int64) : Except SubjectiveBillingError UInt32 :=
  let ordinal := t.toUInt64 / (1000 * subjectiveTimeIntervalMs.toUInt64)
  if ordinal ≤ 0xFFFFFFFF then .ok ordinal.toUInt32
  else .error (.txResourceExhaustion "overflow of quantized time in subjective billing")

/-- `uint32_t bill = std::max<int64_t>(0, elapsed.count())`. -/
def billOf (elapsed : Int64) : UInt32 :=
  if elapsed < 0 then 0 else elapsed.toUInt64.toUInt32

variable [DecidableEq A]

/-- The account's entry of `_account_subjective_bill_cache` becomes `info`. -/
def setAccountInfo (account : A) (info : Option SubjectiveBillingInfo) (s : SubjectiveBilling T A) :
    SubjectiveBilling T A :=
  { s with
    accountSubjectiveBillCache := Function.update s.accountSubjectiveBillCache account info }

/-- `info.expired_accumulator.add(units, time_ordinal, expired_accumulator_average_window)`, on the
account's entry `info`, in place. -/
def addExpired (account : A) (info : SubjectiveBillingInfo) (units : UInt64)
    (timeOrdinal : UInt32) : EStateM SubjectiveBillingError (SubjectiveBilling T A) Unit :=
  match (ExponentialDecayAccumulator.add rateLimitingPrecision units timeOrdinal
      expiredAccumulatorAverageWindow).run info.expiredAccumulator with
  | .ok _ acc => modify (setAccountInfo account (some { info with expiredAccumulator := acc }))
  | .error e acc => do
    modify (setAccountInfo account (some { info with expiredAccumulator := acc }))
    throw (.accumulator e)

/-- `remove_subjective_billing(entry, time_ordinal)`: the bill leaves the account's pending time,
and the account's entry goes once it is empty. -/
def removeSubjectiveBillingEntry (entry : TrxCacheEntry T A) (timeOrdinal : UInt32) :
    EStateM SubjectiveBillingError (SubjectiveBilling T A) Unit := do
  let s ← get
  match s.accountSubjectiveBillCache entry.account with
  | none => pure ()
  | some info =>
    let info := { info with pendingCpuUs := info.pendingCpuUs - entry.subjectiveCpuBill.toUInt64 }
    modify (setAccountInfo entry.account (some info))
    -- `EOS_ASSERT(pending_cpu_us >= 0)` holds of every `uint64_t`
    if ← liftExcept (info.empty timeOrdinal) then
      modify (setAccountInfo entry.account none)

/-- `transition_to_expired(entry, time_ordinal)`: the bill moves from the account's pending time
to its expired accumulator. -/
def transitionToExpired (entry : TrxCacheEntry T A) (timeOrdinal : UInt32) :
    EStateM SubjectiveBillingError (SubjectiveBilling T A) Unit := do
  let s ← get
  match s.accountSubjectiveBillCache entry.account with
  | none => pure ()
  | some info =>
    let info := { info with pendingCpuUs := info.pendingCpuUs - entry.subjectiveCpuBill.toUInt64 }
    modify (setAccountInfo entry.account (some info))
    addExpired entry.account info entry.subjectiveCpuBill.toUInt64 timeOrdinal

/-- The entry of a new transaction, and its bill in its account's pending time: `operator[]`
makes the account's entry when it has none. -/
def addEntry (entry : TrxCacheEntry T A) (s : SubjectiveBilling T A) : SubjectiveBilling T A :=
  let info := (s.accountSubjectiveBillCache entry.account).getD {}
  { s with
    trxCacheIndex := s.trxCacheIndex ++ [entry]
    accountSubjectiveBillCache := Function.update s.accountSubjectiveBillCache entry.account
      (some { info with pendingCpuUs := info.pendingCpuUs + entry.subjectiveCpuBill.toUInt64 }) }

/-- `_block_subjective_bill_cache[account] += bill`. -/
def addBlockBill (account : A) (bill : UInt32) (s : SubjectiveBilling T A) :
    SubjectiveBilling T A :=
  { s with
    blockSubjectiveBillCache := Function.update s.blockSubjectiveBillCache account
      (some ((s.blockSubjectiveBillCache account).getD 0 + bill.toUInt64)) }

/-- `subjective_bill_failure(first_auth, elapsed, now)`: `operator[]` makes the account's entry
before its accumulator adds the bill. -/
def subjectiveBillFailure (firstAuth : A) (elapsed : Int64) (now : Int64) :
    EStateM SubjectiveBillingError (SubjectiveBilling T A) Unit := do
  let s ← get
  if !s.disabled && firstAuth ∉ s.disabledAccounts then
    let bill := billOf elapsed
    let timeOrdinal ← liftExcept (timeOrdinalFor now)
    let info := (s.accountSubjectiveBillCache firstAuth).getD {}
    modify (setAccountInfo firstAuth (some info))
    addExpired firstAuth info bill.toUInt64 timeOrdinal

/-- `get_subjective_bill(first_auth, now)`. -/
def getSubjectiveBill (s : SubjectiveBilling T A) (firstAuth : A) (now : Int64) :
    Except SubjectiveBillingError UInt32 :=
  if s.disabled || firstAuth ∈ s.disabledAccounts then .ok 0
  else do
    let timeOrdinal ← timeOrdinalFor now
    let inBlockPendingCpuUs := (s.blockSubjectiveBillCache firstAuth).getD 0
    match s.accountSubjectiveBillCache firstAuth with
    | none => .ok 0
    | some info =>
      if inBlockPendingCpuUs ≤ info.pendingCpuUs then
        let expired ← valueAt info.expiredAccumulator timeOrdinal expiredAccumulatorAverageWindow
        .ok (info.pendingCpuUs - inBlockPendingCpuUs + expired).toUInt32
      else .error (.txResourceExhaustion "Logic error subjective billing \x7ba\x7d")

/-- `abort_block()`. -/
def abortBlock (s : SubjectiveBilling T A) : SubjectiveBilling T A :=
  { s with blockSubjectiveBillCache := fun _ => none }

/-- `idx.begin()` of the index by expiry: the entry of the earliest expiry, the first inserted
among equal ones. -/
def earliestExpiry : List (TrxCacheEntry T A) → Option (TrxCacheEntry T A)
  | [] => none
  | e :: es =>
    match earliestExpiry es with
    | none => some e
    | some b => if b.expiry < e.expiry then some b else some e

section Ids

variable [DecidableEq T]

/-- `idx.erase(itr)` of the transaction's entry. -/
def eraseEntry (trxId : T) (s : SubjectiveBilling T A) : SubjectiveBilling T A :=
  { s with trxCacheIndex := s.trxCacheIndex.filter (·.trxId ≠ trxId) }

/-- `remove_subjective_billing(trx_id, time_ordinal)`. -/
def removeSubjectiveBilling (trxId : T) (timeOrdinal : UInt32) :
    EStateM SubjectiveBillingError (SubjectiveBilling T A) Unit := do
  let s ← get
  match s.trxCacheIndex.find? (·.trxId = trxId) with
  | none => pure ()
  | some entry =>
    removeSubjectiveBillingEntry entry timeOrdinal
    modify (eraseEntry trxId)

/-- `remove_subjective_billing(bsp, time_ordinal)`, over the ids of the block's packed
transactions. -/
def removeSubjectiveBillingBlock (trxIds : List T) (timeOrdinal : UInt32) :
    EStateM SubjectiveBillingError (SubjectiveBilling T A) Unit := do
  let s ← get
  unless s.trxCacheIndex.isEmpty do
    trxIds.forM fun trxId => removeSubjectiveBilling trxId timeOrdinal

/-- `subjective_bill(id, expire, first_auth, elapsed, in_pending_block)`. -/
def subjectiveBill (id : T) (expire : Int64) (firstAuth : A) (elapsed : Int64)
    (inPendingBlock : Bool) : EStateM SubjectiveBillingError (SubjectiveBilling T A) Unit := do
  let s ← get
  if !s.disabled && firstAuth ∉ s.disabledAccounts then
    let bill := billOf elapsed
    -- `emplace` into the unique index by id
    unless s.trxCacheIndex.any (·.trxId = id) do
      modify (addEntry
        { trxId := id, account := firstAuth, subjectiveCpuBill := bill, expiry := expire })
      if inPendingBlock then
        modify (addBlockBill firstAuth bill)

/-- `on_block(bsp, now)`, `none` being a null `bsp`. -/
def onBlock (bsp : Option (List T)) (now : Int64) :
    EStateM SubjectiveBillingError (SubjectiveBilling T A) Unit :=
  match bsp with
  | none => pure ()
  | some trxIds => do
    let timeOrdinal ← liftExcept (timeOrdinalFor now)
    removeSubjectiveBillingBlock trxIds timeOrdinal

/-- The loop of `remove_expired`: the entry of the earliest expiry goes while it has expired,
until the deadline passes after `budget` entries. Whether it stopped before the deadline. -/
def removeExpiredLoop (pendingBlockTime : Int64) (timeOrdinal : UInt32) :
    ℕ → EStateM SubjectiveBillingError (SubjectiveBilling T A) Bool
  | 0 => do
    let s ← get
    -- `deadline <= fc::time_point::now()` while entries are left
    pure s.trxCacheIndex.isEmpty
  | budget + 1 => do
    let s ← get
    match earliestExpiry s.trxCacheIndex with
    | none => pure true
    | some b =>
      if pendingBlockTime < b.expiry then pure true
      else do
        transitionToExpired b timeOrdinal
        modify (eraseEntry b.trxId)
        removeExpiredLoop pendingBlockTime timeOrdinal budget

/-- `remove_expired(log, pending_block_time, now, deadline)`. -/
def removeExpired (pendingBlockTime now : Int64) (budget : ℕ) :
    EStateM SubjectiveBillingError (SubjectiveBilling T A) Bool := do
  let s ← get
  if s.trxCacheIndex.isEmpty then pure true
  else do
    let timeOrdinal ← liftExcept (timeOrdinalFor now)
    removeExpiredLoop pendingBlockTime timeOrdinal budget

end Ids

/-! ### The invariant -/

section Inv

variable (s : SubjectiveBilling T A)

/-- `pending_cpu_us` of an account, 0 when it has no entry. -/
def pendingOf (a : A) : UInt64 := ((s.accountSubjectiveBillCache a).map (·.pendingCpuUs)).getD 0

/-- The account's block bill, 0 when it has no entry. -/
def blockOf (a : A) : UInt64 := (s.blockSubjectiveBillCache a).getD 0

/-- The bills of the account's transactions in the cache, summed. -/
def billedOf (a : A) : ℕ :=
  (s.trxCacheIndex.map fun e => if e.account = a then e.subjectiveCpuBill.toNat else 0).sum

/-- The bills of all the transactions in the cache, summed. -/
def billedAll : ℕ := (s.trxCacheIndex.map fun e => e.subjectiveCpuBill.toNat).sum

/-- **The records of the bills agree.** The ids are unique, each account's `pending_cpu_us` is the
sum of its transactions' bills, its block bill is at most that, and no account has a block bill
unless a `subjective_bill` in the pending block came after the last `abort_block` (`dirty`). -/

structure Inv (dirty : Bool) : Prop where
  idsUnique : (s.trxCacheIndex.map (·.trxId)).Nodup
  pending : ∀ a, (s.pendingOf a).toNat = s.billedOf a
  block : ∀ a, (s.blockOf a).toNat ≤ s.billedOf a
  clean : dirty = false → ∀ a, s.blockSubjectiveBillCache a = none

theorem billedOf_le_billedAll (a : A) : s.billedOf a ≤ s.billedAll := by
  refine List.sum_le_sum fun e _ => ?_
  split
  · exact le_refl _
  · exact Nat.zero_le _

end Inv

variable {s s' : SubjectiveBilling T A} {dirty : Bool}

/-- `Inv` reads only the cache, the pending times and the block bills. -/
theorem Inv.of_eq (h : s.Inv dirty) (htrx : s'.trxCacheIndex = s.trxCacheIndex)
    (hpending : ∀ a, s'.pendingOf a = s.pendingOf a)
    (hblock : s'.blockSubjectiveBillCache = s.blockSubjectiveBillCache) : s'.Inv dirty := by
  have hbilled : ∀ a, s'.billedOf a = s.billedOf a := fun a => by rw [billedOf, htrx, billedOf]
  refine ⟨htrx ▸ h.idsUnique, fun a => ?_, fun a => ?_, fun hd a => ?_⟩
  · rw [hpending, hbilled]
    exact h.pending a
  · rw [blockOf, hblock, hbilled]
    exact h.block a
  · rw [hblock]
    exact h.clean hd a

theorem Inv.weaken (h : s.Inv dirty) {dirty' : Bool} (hd : dirty' = false → dirty = false) :
    s.Inv dirty' :=
  ⟨h.idsUnique, h.pending, h.block, fun h' => h.clean (hd h')⟩

@[simp] theorem pendingOf_setAccountInfo (account : A) (info : Option SubjectiveBillingInfo)
    (a : A) : (setAccountInfo account info s).pendingOf a =
      if a = account then (info.map (·.pendingCpuUs)).getD 0 else s.pendingOf a := by
  simp only [pendingOf, setAccountInfo, Function.update_apply]
  split <;> rfl

@[simp] theorem trxCacheIndex_setAccountInfo (account : A) (info : Option SubjectiveBillingInfo) :
    (setAccountInfo account info s).trxCacheIndex = s.trxCacheIndex := rfl

@[simp] theorem blockSubjectiveBillCache_setAccountInfo (account : A)
    (info : Option SubjectiveBillingInfo) :
    (setAccountInfo account info s).blockSubjectiveBillCache = s.blockSubjectiveBillCache := rfl

/-- A new transaction's bill goes to its account's pending time. -/
@[simp] theorem pendingOf_addEntry (e : TrxCacheEntry T A) (a : A) :
    (addEntry e s).pendingOf a =
      if a = e.account then s.pendingOf a + e.subjectiveCpuBill.toUInt64 else s.pendingOf a := by
  by_cases ha : a = e.account
  · subst ha
    cases hinfo : s.accountSubjectiveBillCache e.account <;> simp [addEntry, pendingOf, hinfo]
  · simp [addEntry, pendingOf, ha]

theorem billedOf_addEntry (e : TrxCacheEntry T A) (a : A) :
    (addEntry e s).billedOf a =
      s.billedOf a + if e.account = a then e.subjectiveCpuBill.toNat else 0 := by
  simp [addEntry, billedOf]

theorem billedAll_addEntry (e : TrxCacheEntry T A) :
    (addEntry e s).billedAll = s.billedAll + e.subjectiveCpuBill.toNat := by
  simp [addEntry, billedAll]

/-! ### What each step writes -/

/-- `value_at` does not throw: the decay is exact. -/
theorem valueAt_eq_ok (acc : ExponentialDecayAccumulator) (ordinal windowSize : UInt32) :
    ∃ v, valueAt acc ordinal windowSize = .ok v := by
  obtain ⟨v, hv, -⟩ := @ExponentialDecayAccumulator.valueExAt_eq_ok acc ordinal windowSize
  exact ⟨_, by rw [valueAt, hv]; rfl⟩

/-- `empty` does not throw, and holds only with no pending time. -/
theorem empty_eq_ok (info : SubjectiveBillingInfo) (timeOrdinal : UInt32) :
    ∃ b, info.empty timeOrdinal = .ok b ∧ (b = true → info.pendingCpuUs = 0) := by
  obtain ⟨v, hv⟩ := valueAt_eq_ok info.expiredAccumulator timeOrdinal expiredAccumulatorAverageWindow
  refine ⟨info.pendingCpuUs == 0 && v == 0, by rw [SubjectiveBillingInfo.empty, hv]; rfl, fun h => ?_⟩
  simp only [Bool.and_eq_true, beq_iff_eq] at h
  exact h.1

/-- A bill fits the accumulator's precision. -/
theorem toUInt64_le_maxRawValue (bill : UInt32) :
    bill.toUInt64 ≤ maxRawValue rateLimitingPrecision := by
  rw [UInt64.le_iff_toNat_le, UInt32.toNat_toUInt64]
  have := bill.toNat_lt
  have hmax : (maxRawValue rateLimitingPrecision).toNat = 18446744073709 := by decide
  omega

/-- `addExpired` writes the account's entry with its pending time, whether or not the accumulator
throws. -/
theorem stateOf_addExpired (account : A) (info : SubjectiveBillingInfo) (units : UInt64)
    (timeOrdinal : UInt32) : ∃ acc, stateOf ((addExpired account info units timeOrdinal).run s) =
      setAccountInfo account (some { info with expiredAccumulator := acc }) s := by
  unfold addExpired
  split
  · exact ⟨_, rfl⟩
  · exact ⟨_, rfl⟩

/-- `addExpired` of a bill returns. -/
theorem addExpired_eq_ok (account : A) (info : SubjectiveBillingInfo) (bill : UInt32)
    (timeOrdinal : UInt32) : ∃ acc, (addExpired account info bill.toUInt64 timeOrdinal).run s =
      .ok () (setAccountInfo account (some { info with expiredAccumulator := acc }) s) := by
  obtain ⟨acc, hacc⟩ := @ExponentialDecayAccumulator.add_eq_ok rateLimitingPrecision
    info.expiredAccumulator bill.toUInt64 timeOrdinal expiredAccumulatorAverageWindow
    (toUInt64_le_maxRawValue bill)
  refine ⟨acc, ?_⟩
  unfold addExpired
  rw [hacc]
  rfl

/-- `s'` is `s` with the bill of `e` taken from its account's pending time, when the account has
an entry. -/
def TakesBill (e : TrxCacheEntry T A) (s s' : SubjectiveBilling T A) : Prop :=
  s'.trxCacheIndex = s.trxCacheIndex ∧ s'.blockSubjectiveBillCache = s.blockSubjectiveBillCache ∧
    ∀ a, s'.pendingOf a = if a = e.account ∧ (s.accountSubjectiveBillCache a).isSome then
      s.pendingOf a - e.subjectiveCpuBill.toUInt64 else s.pendingOf a

/-- The write of the smaller pending time, for an account with an entry. -/
theorem takesBill_setAccountInfo {e : TrxCacheEntry T A} {info : SubjectiveBillingInfo}
    (hinfo : s.accountSubjectiveBillCache e.account = some info) (info' : SubjectiveBillingInfo)
    (hpending : info'.pendingCpuUs = info.pendingCpuUs - e.subjectiveCpuBill.toUInt64) :
    TakesBill e s (setAccountInfo e.account (some info') s) := by
  refine ⟨rfl, rfl, fun a => ?_⟩
  rw [pendingOf_setAccountInfo]
  by_cases ha : a = e.account
  · subst ha
    simp [hinfo, pendingOf, hpending]
  · simp [ha]

/-- **`remove_subjective_billing(entry, time_ordinal)` takes the bill** and returns: the
account's entry is erased only once its pending time is 0. -/
theorem removeSubjectiveBillingEntry_takesBill (e : TrxCacheEntry T A) (timeOrdinal : UInt32) :
    ∃ s', (removeSubjectiveBillingEntry e timeOrdinal).run s = .ok () s' ∧ TakesBill e s s' := by
  unfold removeSubjectiveBillingEntry
  rw [run_bind_get]
  cases hinfo : s.accountSubjectiveBillCache e.account with
  | none =>
    -- no entry: nothing is written
    refine ⟨s, rfl, rfl, rfl, fun a => ?_⟩
    by_cases ha : a = e.account
    · subst ha
      simp [hinfo]
    · simp [ha]
  | some info =>
    obtain ⟨b, hb, hempty⟩ := empty_eq_ok
      { info with pendingCpuUs := info.pendingCpuUs - e.subjectiveCpuBill.toUInt64 } timeOrdinal
    have htakes := takesBill_setAccountInfo hinfo
      { info with pendingCpuUs := info.pendingCpuUs - e.subjectiveCpuBill.toUInt64 } rfl
    simp only [run_bind_modify, run_bind_liftExcept]
    rw [hb]
    cases b with
    | false => exact ⟨_, rfl, htakes⟩
    | true =>
      -- the entry goes with a pending time of 0, which is what it held
      refine ⟨_, rfl, rfl, rfl, fun a => ?_⟩
      rw [pendingOf_setAccountInfo, ← htakes.2.2 a, pendingOf_setAccountInfo]
      by_cases ha : a = e.account
      · have hzero := hempty rfl
        simp only at hzero
        simp [ha, hzero]
      · simp [ha]

/-- **`transition_to_expired(entry, time_ordinal)` takes the bill** and returns. -/
theorem transitionToExpired_takesBill (e : TrxCacheEntry T A) (timeOrdinal : UInt32) :
    ∃ s', (transitionToExpired e timeOrdinal).run s = .ok () s' ∧ TakesBill e s s' := by
  unfold transitionToExpired
  rw [run_bind_get]
  cases hinfo : s.accountSubjectiveBillCache e.account with
  | none =>
    refine ⟨s, rfl, rfl, rfl, fun a => ?_⟩
    by_cases ha : a = e.account
    · subst ha
      simp [hinfo]
    · simp [ha]
  | some info =>
    obtain ⟨acc, hacc⟩ := addExpired_eq_ok
      (s := setAccountInfo e.account
        (some { info with pendingCpuUs := info.pendingCpuUs - e.subjectiveCpuBill.toUInt64 }) s)
      e.account { info with pendingCpuUs := info.pendingCpuUs - e.subjectiveCpuBill.toUInt64 }
      e.subjectiveCpuBill timeOrdinal
    have htakes := takesBill_setAccountInfo hinfo
      { info with pendingCpuUs := info.pendingCpuUs - e.subjectiveCpuBill.toUInt64 } rfl
    simp only [run_bind_modify]
    rw [hacc]
    -- the accumulator's write keeps the smaller pending time
    refine ⟨_, rfl, rfl, rfl, fun a => ?_⟩
    rw [pendingOf_setAccountInfo, ← htakes.2.2 a, pendingOf_setAccountInfo]
    by_cases ha : a = e.account
    · simp [ha]
    · simp [ha]

/-- A new transaction's bill keeps the invariant, when the bills stay below `2^64`: its account's
pending time and its sum both grow by the bill. -/
theorem Inv.withEntry (h : s.Inv dirty) {e : TrxCacheEntry T A}
    (hfresh : e.trxId ∉ s.trxCacheIndex.map (·.trxId))
    (hbound : s.billedAll + e.subjectiveCpuBill.toNat < 2 ^ 64) : (addEntry e s).Inv dirty := by
  refine ⟨KeyedList.nodup_map_append_singleton _ h.idsUnique hfresh, fun a => ?_, fun a => ?_,
    h.clean⟩
  · rw [billedOf_addEntry, pendingOf_addEntry]
    by_cases ha : e.account = a
    · subst ha
      -- the pending time was the sum, below `2^64` with the bill
      have hpend : (s.pendingOf e.account).toNat + e.subjectiveCpuBill.toNat < 2 ^ 64 := by
        rw [h.pending]
        exact lt_of_le_of_lt (Nat.add_le_add_right (s.billedOf_le_billedAll _) _) hbound
      rw [if_pos rfl, if_pos rfl, toNat_add_of_lt (by rwa [UInt32.toNat_toUInt64]),
        UInt32.toNat_toUInt64, h.pending]
    · rw [if_neg (Ne.symm ha), if_neg ha, Nat.add_zero, h.pending]
  · rw [billedOf_addEntry]
    exact (h.block a).trans (Nat.le_add_right _ _)

/-- A bill in the pending block keeps the invariant, the block bill being at most the sum it
was added to. -/
theorem Inv.withBlockBill (h : s.Inv dirty) (account : A) (bill : UInt32)
    (hle : (s.blockOf account).toNat + bill.toNat ≤ s.billedOf account)
    (hbound : s.billedOf account < 2 ^ 64) : (addBlockBill account bill s).Inv true := by
  refine ⟨h.idsUnique, h.pending, fun a => ?_, nofun⟩
  by_cases ha : a = account
  · subst ha
    have hnew : (addBlockBill a bill s).blockOf a = s.blockOf a + bill.toUInt64 := by
      simp [addBlockBill, blockOf]
    rw [hnew, toNat_add_of_lt (by rw [UInt32.toNat_toUInt64]; omega), UInt32.toNat_toUInt64]
    exact hle
  · have hold : (addBlockBill account bill s).blockOf a = s.blockOf a := by
      simp [addBlockBill, blockOf, ha]
    rw [hold]
    exact h.block a

omit [DecidableEq A] in
/-- The entry `idx.begin()` finds is in the index. -/
theorem earliestExpiry_mem : ∀ {l : List (TrxCacheEntry T A)} {b : TrxCacheEntry T A},
    earliestExpiry l = some b → b ∈ l
  | [], _, h => by cases h
  | e :: es, b, h => by
    unfold earliestExpiry at h
    split at h
    · cases h
      exact List.mem_cons_self
    · next b' hb' =>
      split at h
      · cases h
        exact List.mem_cons_of_mem e (earliestExpiry_mem hb')
      · cases h
        exact List.mem_cons_self

/-- **`subjective_bill_failure` keeps the invariant**: it writes only the account's accumulator,
making the account's entry, with no pending time, when it has none. -/
theorem subjectiveBillFailure_inv (h : s.Inv dirty) (firstAuth : A) (elapsed now : Int64) :
    (stateOf ((subjectiveBillFailure firstAuth elapsed now).run s)).Inv dirty ∧
      (stateOf ((subjectiveBillFailure firstAuth elapsed now).run s)).billedAll = s.billedAll := by
  unfold subjectiveBillFailure
  rw [run_bind_get]
  by_cases hen : (!s.disabled && decide (firstAuth ∉ s.disabledAccounts)) = true
  · rw [if_pos hen]
    dsimp only
    rw [run_bind_liftExcept]
    cases timeOrdinalFor now with
    | error e => exact ⟨h, rfl⟩
    | ok timeOrdinal =>
      dsimp only
      rw [run_bind_modify]
      obtain ⟨acc, hacc⟩ := stateOf_addExpired
        (s := setAccountInfo firstAuth (some ((s.accountSubjectiveBillCache firstAuth).getD {})) s)
        firstAuth ((s.accountSubjectiveBillCache firstAuth).getD {}) (billOf elapsed).toUInt64
        timeOrdinal
      rw [hacc]
      -- the pending time written is the one the account had, 0 when it had no entry
      refine ⟨h.of_eq rfl (fun a => ?_) rfl, rfl⟩
      rw [pendingOf_setAccountInfo, pendingOf_setAccountInfo]
      by_cases ha : a = firstAuth
      · subst ha
        cases hinfo : s.accountSubjectiveBillCache a <;> simp [pendingOf, hinfo]
      · simp [ha]
  · rw [if_neg hen]
    exact ⟨h, rfl⟩

theorem abortBlock_inv (h : s.Inv dirty) : (abortBlock s).Inv false :=
  ⟨h.idsUnique, h.pending, fun _ => Nat.zero_le _, fun _ _ => rfl⟩

theorem initial_inv : (initial : SubjectiveBilling T A).Inv false :=
  ⟨List.nodup_nil, fun _ => rfl, fun _ => Nat.zero_le _, fun _ _ => rfl⟩

/-! ### What the invariant gives -/

theorem Inv.blockOf_le (h : s.Inv dirty) (a : A) : s.blockOf a ≤ s.pendingOf a := by
  rw [UInt64.le_iff_toNat_le, h.pending]
  exact h.block a

/-- The bill a removal takes from an account's pending time is counted in it, so the subtraction
does not wrap. -/
theorem Inv.bill_le (h : s.Inv dirty) {e : TrxCacheEntry T A} (he : e ∈ s.trxCacheIndex) :
    e.subjectiveCpuBill.toUInt64 ≤ s.pendingOf e.account := by
  rw [UInt64.le_iff_toNat_le, UInt32.toNat_toUInt64, h.pending]
  have hmem : (if e.account = e.account then e.subjectiveCpuBill.toNat else 0) ∈
      s.trxCacheIndex.map fun x => if x.account = e.account then x.subjectiveCpuBill.toNat else 0 :=
    List.mem_map_of_mem he
  rw [if_pos rfl] at hmem
  exact List.le_sum_of_mem hmem

/-- `time_ordinal_for` throws only its overflow. -/
theorem timeOrdinalFor_eq_error {t : Int64} {e : SubjectiveBillingError}
    (h : timeOrdinalFor t = .error e) :
    e = .txResourceExhaustion "overflow of quantized time in subjective billing" := by
  unfold timeOrdinalFor at h
  dsimp only at h
  split at h
  · cases h
  · cases h
    rfl

/-- **`get_subjective_bill` returns** whenever the time fits its interval count: the block bill is
at most the pending time. -/
theorem Inv.getSubjectiveBill_eq_ok (h : s.Inv dirty) (a : A) {now : Int64} {timeOrdinal : UInt32}
    (ht : timeOrdinalFor now = .ok timeOrdinal) : ∃ bill, s.getSubjectiveBill a now = .ok bill := by
  unfold getSubjectiveBill
  split
  · exact ⟨0, rfl⟩
  · rw [ht, ok_bind]
    cases hinfo : s.accountSubjectiveBillCache a with
    | none => exact ⟨0, rfl⟩
    | some info =>
      have hle : (s.blockSubjectiveBillCache a).getD 0 ≤ info.pendingCpuUs := by
        simpa [blockOf, pendingOf, hinfo] using h.blockOf_le a
      obtain ⟨v, hv⟩ := valueAt_eq_ok info.expiredAccumulator timeOrdinal
        expiredAccumulatorAverageWindow
      dsimp only
      rw [if_pos hle, hv]
      exact ⟨_, rfl⟩

/-- **`get_subjective_bill` does not throw its logic error.** -/
theorem Inv.getSubjectiveBill_ne_logicError (h : s.Inv dirty) (a : A) (now : Int64) :
    s.getSubjectiveBill a now ≠
      .error (.txResourceExhaustion "Logic error subjective billing \x7ba\x7d") := by
  cases ht : timeOrdinalFor now with
  | ok timeOrdinal =>
    obtain ⟨bill, hbill⟩ := h.getSubjectiveBill_eq_ok a ht
    rw [hbill]
    exact nofun
  | error e =>
    -- the only error left is the time's own
    have he := timeOrdinalFor_eq_error ht
    unfold getSubjectiveBill
    split
    · exact nofun
    · rw [ht, error_bind, he]
      intro hmsg
      injection hmsg with hmsg
      injection hmsg with hmsg
      exact absurd hmsg (by decide)

section Ids

variable [DecidableEq T]

omit [DecidableEq A] in
@[simp] theorem pendingOf_eraseEntry (trxId : T) (a : A) :
    (eraseEntry trxId s).pendingOf a = s.pendingOf a := rfl

omit [DecidableEq A] in
@[simp] theorem blockSubjectiveBillCache_eraseEntry (trxId : T) :
    (eraseEntry trxId s).blockSubjectiveBillCache = s.blockSubjectiveBillCache := rfl

/-- Erasing a transaction takes its bill out of its account's sum. -/
theorem billedOf_eraseEntry (hu : (s.trxCacheIndex.map (·.trxId)).Nodup) {e : TrxCacheEntry T A}
    (he : e ∈ s.trxCacheIndex) (a : A) :
    (eraseEntry e.trxId s).billedOf a + (if e.account = a then e.subjectiveCpuBill.toNat else 0) =
      s.billedOf a :=
  KeyedList.sum_map_filter_key_ne (fun x : TrxCacheEntry T A => x.trxId) _ hu he

omit [DecidableEq A] in
theorem billedAll_eraseEntry_le (trxId : T) : (eraseEntry trxId s).billedAll ≤ s.billedAll :=
  (List.filter_sublist.map _).sum_le_sum fun _ _ => Nat.zero_le _

/-- **A bill taken from its account and its transaction erased keep the invariant**: the pending
time held the bill, so the subtraction does not wrap. -/
theorem Inv.eraseEntry_of_takesBill (h : s.Inv false) {e : TrxCacheEntry T A}
    (he : e ∈ s.trxCacheIndex) (ht : TakesBill e s s') : (eraseEntry e.trxId s').Inv false := by
  obtain ⟨htrx, hblock, hpend⟩ := ht
  have hu' : (s'.trxCacheIndex.map (·.trxId)).Nodup := htrx ▸ h.idsUnique
  have he' : e ∈ s'.trxCacheIndex := htrx ▸ he
  have hbilled' : ∀ a, s'.billedOf a = s.billedOf a := fun a => by rw [billedOf, htrx, billedOf]
  refine ⟨KeyedList.nodup_map_filter _ hu' _, fun a => ?_, fun a => ?_, fun _ a => ?_⟩
  · have hsum := billedOf_eraseEntry hu' he' a
    rw [hbilled'] at hsum
    rw [pendingOf_eraseEntry, hpend a]
    by_cases ha : a = e.account
    · subst ha
      rw [if_pos rfl] at hsum
      cases hinfo : s.accountSubjectiveBillCache e.account with
      | none =>
        -- no entry: its sum is 0, so the bill is 0
        have hzero : s.billedOf e.account = 0 := by
          rw [← h.pending]
          simp [pendingOf, hinfo]
        simp only [Option.isSome_none, Bool.false_eq_true, and_false, if_false]
        rw [h.pending]
        omega
      | some info =>
        -- the pending time is the sum, which holds the bill
        have hle : e.subjectiveCpuBill.toUInt64 ≤ s.pendingOf e.account := by
          rw [UInt64.le_iff_toNat_le, UInt32.toNat_toUInt64, h.pending]
          omega
        simp only [Option.isSome_some, and_self, if_true]
        rw [UInt64.toNat_sub_of_le _ _ hle, h.pending, UInt32.toNat_toUInt64]
        omega
    · rw [if_neg (fun h' => ha h'.1), h.pending, ← hsum, if_neg (Ne.symm ha), Nat.add_zero]
  · rw [blockOf, blockSubjectiveBillCache_eraseEntry, hblock, h.clean rfl a]
    exact Nat.zero_le _
  · rw [blockSubjectiveBillCache_eraseEntry, hblock]
    exact h.clean rfl a

/-- **`remove_subjective_billing(trx_id, time_ordinal)` keeps the invariant** and returns. -/
theorem removeSubjectiveBilling_inv (h : s.Inv false) (trxId : T) (timeOrdinal : UInt32) :
    ∃ s', (removeSubjectiveBilling trxId timeOrdinal).run s = .ok () s' ∧ s'.Inv false ∧
      s'.billedAll ≤ s.billedAll := by
  unfold removeSubjectiveBilling
  rw [run_bind_get]
  cases hfind : s.trxCacheIndex.find? (·.trxId = trxId) with
  | none => exact ⟨s, rfl, h, le_refl _⟩
  | some e =>
    have he : e ∈ s.trxCacheIndex := List.mem_of_find?_eq_some hfind
    have hid : e.trxId = trxId := by simpa using List.find?_some hfind
    obtain ⟨s₁, hrun, ht⟩ := removeSubjectiveBillingEntry_takesBill (s := s) e timeOrdinal
    refine ⟨eraseEntry trxId s₁, ?_, hid ▸ h.eraseEntry_of_takesBill he ht, ?_⟩
    · show (removeSubjectiveBillingEntry e timeOrdinal >>= fun _ => modify (eraseEntry trxId)).run s = _
      rw [run_bind, hrun]
      rfl
    · have hall : s₁.billedAll = s.billedAll := by rw [billedAll, ht.1, billedAll]
      exact hall ▸ billedAll_eraseEntry_le trxId

/-- **Removing the bills of a block's transactions keeps the invariant**, one transaction at a
time, and returns. -/
theorem removeSubjectiveBillingBlock_inv (h : s.Inv false) (trxIds : List T)
    (timeOrdinal : UInt32) :
    ∃ s', (removeSubjectiveBillingBlock trxIds timeOrdinal).run s = .ok () s' ∧ s'.Inv false ∧
      s'.billedAll ≤ s.billedAll := by
  unfold removeSubjectiveBillingBlock
  rw [run_bind_get]
  cases hempty : s.trxCacheIndex.isEmpty with
  | true => exact ⟨s, rfl, h, le_refl _⟩
  | false =>
    -- the loop keeps the invariant and lowers the sum, from one transaction to the next
    have hloop := run_forM_invariant (fun s' : SubjectiveBilling T A => s'.Inv false ∧
        s'.billedAll ≤ s.billedAll) (l := trxIds)
      (fun trxId _ s₁ hs₁ => by
        obtain ⟨s₂, hrun, hinv, hle⟩ := removeSubjectiveBilling_inv hs₁.1 trxId timeOrdinal
        exact ⟨s₂, hrun, hinv, hle.trans hs₁.2⟩) s ⟨h, le_refl _⟩
    obtain ⟨s', hrun, hs'⟩ := hloop
    exact ⟨s', hrun, hs'⟩

/-- **The loop of `remove_expired` keeps the invariant** and returns, by induction on the entries
it gets to before the deadline: each expired entry's bill goes to the accumulator and the entry
is erased. -/
theorem removeExpiredLoop_inv (pendingBlockTime : Int64) (timeOrdinal : UInt32) :
    ∀ (budget : ℕ) (s : SubjectiveBilling T A), s.Inv false →
      ∃ r s', (removeExpiredLoop pendingBlockTime timeOrdinal budget).run s = .ok r s' ∧
        s'.Inv false ∧ s'.billedAll ≤ s.billedAll := by
  intro budget
  induction budget with
  | zero => exact fun s h => ⟨_, s, rfl, h, le_refl _⟩
  | succ budget ih =>
    intro s h
    rw [removeExpiredLoop, run_bind_get]
    cases hb : earliestExpiry s.trxCacheIndex with
    | none => exact ⟨_, s, rfl, h, le_refl _⟩
    | some b =>
      dsimp only
      by_cases hexp : pendingBlockTime < b.expiry
      · rw [if_pos hexp]
        exact ⟨_, s, rfl, h, le_refl _⟩
      · rw [if_neg hexp]
        have hmem := earliestExpiry_mem hb
        obtain ⟨s₁, hrun, ht⟩ := transitionToExpired_takesBill (s := s) b timeOrdinal
        have hinv := h.eraseEntry_of_takesBill hmem ht
        have hall : (eraseEntry b.trxId s₁).billedAll ≤ s.billedAll := by
          have : s₁.billedAll = s.billedAll := by rw [billedAll, ht.1, billedAll]
          exact this ▸ billedAll_eraseEntry_le b.trxId
        obtain ⟨r, s', hrest, hinv', hall'⟩ := ih _ hinv
        refine ⟨r, s', ?_, hinv', hall'.trans hall⟩
        rw [run_bind, hrun]
        exact hrest

/-- **`on_block` keeps the invariant**: it throws only on the time, before it writes. -/
theorem onBlock_inv (h : s.Inv false) (bsp : Option (List T)) (now : Int64) :
    (stateOf ((onBlock bsp now).run s)).Inv false ∧
      (stateOf ((onBlock bsp now).run s)).billedAll ≤ s.billedAll := by
  unfold onBlock
  cases bsp with
  | none => exact ⟨h, le_refl _⟩
  | some trxIds =>
    dsimp only
    rw [run_bind_liftExcept]
    cases timeOrdinalFor now with
    | error e => exact ⟨h, le_refl _⟩
    | ok timeOrdinal =>
      obtain ⟨s', hrun, hinv, hle⟩ := removeSubjectiveBillingBlock_inv h trxIds timeOrdinal
      dsimp only
      rw [hrun]
      exact ⟨hinv, hle⟩

/-- **`remove_expired` keeps the invariant**: it throws only on the time, before it writes. -/
theorem removeExpired_inv (h : s.Inv false) (pendingBlockTime now : Int64) (budget : ℕ) :
    (stateOf ((removeExpired pendingBlockTime now budget).run s)).Inv false ∧
      (stateOf ((removeExpired pendingBlockTime now budget).run s)).billedAll ≤ s.billedAll := by
  unfold removeExpired
  rw [run_bind_get]
  by_cases hempty : s.trxCacheIndex.isEmpty = true
  · rw [if_pos hempty]
    exact ⟨h, le_refl _⟩
  · rw [if_neg hempty, run_bind_liftExcept]
    cases timeOrdinalFor now with
    | error e => exact ⟨h, le_refl _⟩
    | ok timeOrdinal =>
      obtain ⟨r, s', hrun, hinv, hle⟩ := removeExpiredLoop_inv pendingBlockTime timeOrdinal budget s h
      dsimp only
      rw [hrun]
      exact ⟨hinv, hle⟩

/-- What `subjective_bill` writes for a new transaction of an account it bills: the transaction's
entry and its bill, and its block bill when it is in the pending block. -/
theorem subjectiveBill_run_of_fresh {id : T} {firstAuth : A}
    (hen : (!s.disabled && decide (firstAuth ∉ s.disabledAccounts)) = true)
    (hfresh : (s.trxCacheIndex.any fun x => decide (x.trxId = id)) = false) (expire elapsed : Int64)
    (inPendingBlock : Bool) :
    (subjectiveBill id expire firstAuth elapsed inPendingBlock).run s = .ok ()
      (if inPendingBlock then
        addBlockBill firstAuth (billOf elapsed) (addEntry ⟨id, firstAuth, billOf elapsed, expire⟩ s)
      else addEntry ⟨id, firstAuth, billOf elapsed, expire⟩ s) := by
  unfold subjectiveBill
  rw [run_bind_get, if_pos hen]
  dsimp only
  rw [hfresh, if_neg Bool.false_ne_true, run_bind_modify]
  cases inPendingBlock <;> rfl

/-- `subjective_bill` writes nothing for an account it does not bill or an id billed already. -/
theorem subjectiveBill_run_of_skip {id : T} {firstAuth : A}
    (hskip : ¬((!s.disabled && decide (firstAuth ∉ s.disabledAccounts)) = true ∧
      (s.trxCacheIndex.any fun x => decide (x.trxId = id)) = false))
    (expire elapsed : Int64) (inPendingBlock : Bool) :
    (subjectiveBill id expire firstAuth elapsed inPendingBlock).run s = .ok () s := by
  unfold subjectiveBill
  rw [run_bind_get]
  by_cases hen : (!s.disabled && decide (firstAuth ∉ s.disabledAccounts)) = true
  · have hdup : (s.trxCacheIndex.any fun x => decide (x.trxId = id)) = true := by
      simpa using fun h => hskip ⟨hen, h⟩
    rw [if_pos hen]
    dsimp only
    rw [hdup, if_pos rfl]
    rfl
  · rw [if_neg hen]
    rfl

/-- **`subjective_bill` keeps the invariant** when the bills stay below `2^64`, and adds at most
its bill to the sum. -/
theorem subjectiveBill_inv (h : s.Inv dirty) (id : T) (expire : Int64) (firstAuth : A)
    (elapsed : Int64) (inPendingBlock : Bool)
    (hbound : s.billedAll + (billOf elapsed).toNat < 2 ^ 64) :
    (stateOf ((subjectiveBill id expire firstAuth elapsed inPendingBlock).run s)).Inv
        (dirty || inPendingBlock) ∧
      (stateOf ((subjectiveBill id expire firstAuth elapsed inPendingBlock).run s)).billedAll ≤
        s.billedAll + (billOf elapsed).toNat := by
  have hweak : s.Inv (dirty || inPendingBlock) := h.weaken fun hd => (Bool.or_eq_false_iff.mp hd).1
  by_cases hbill : (!s.disabled && decide (firstAuth ∉ s.disabledAccounts)) = true ∧
      (s.trxCacheIndex.any fun x => decide (x.trxId = id)) = false
  · rw [subjectiveBill_run_of_fresh hbill.1 hbill.2, stateOf_ok]
    set e : TrxCacheEntry T A := ⟨id, firstAuth, billOf elapsed, expire⟩
    have hfresh : e.trxId ∉ s.trxCacheIndex.map (·.trxId) := by
      simpa [e] using hbill.2
    have hinv := h.withEntry hfresh hbound
    have hall : (addEntry e s).billedAll = s.billedAll + (billOf elapsed).toNat :=
      billedAll_addEntry e
    cases inPendingBlock with
    | false => exact ⟨hinv.weaken fun hd => by simpa using hd, hall.le⟩
    | true =>
      -- the block bill is at most the sum before the bill, which grew by the bill
      have hle : ((addEntry e s).blockOf firstAuth).toNat + (billOf elapsed).toNat ≤
          (addEntry e s).billedOf firstAuth := by
        have hb : (addEntry e s).blockOf firstAuth = s.blockOf firstAuth := rfl
        rw [hb, billedOf_addEntry, if_pos rfl]
        exact Nat.add_le_add_right (h.block firstAuth) _
      have hlt : (addEntry e s).billedOf firstAuth < 2 ^ 64 :=
        lt_of_le_of_lt ((addEntry e s).billedOf_le_billedAll firstAuth) (hall ▸ hbound)
      exact ⟨by simpa using hinv.withBlockBill firstAuth (billOf elapsed) hle hlt, hall.le⟩
  · rw [subjectiveBill_run_of_skip hbill, stateOf_ok]
    exact ⟨hweak, Nat.le_add_right _ _⟩

end Ids

end SubjectiveBilling

/-! ### Runs of calls -/

open SubjectiveBilling

/-- The calls on `subjective_billing` that change it. -/
inductive BillingCall (T A : Type)
  | disable
  | disableAccount (a : A)
  | subjectiveBill (id : T) (expire : Int64) (firstAuth : A) (elapsed : Int64)
      (inPendingBlock : Bool)
  | subjectiveBillFailure (firstAuth : A) (elapsed now : Int64)
  | abortBlock
  | onBlock (bsp : Option (List T)) (now : Int64)
  | removeSubjectiveBilling (trxId : T) (timeOrdinal : UInt32)
  | removeExpired (pendingBlockTime now : Int64) (budget : ℕ)
deriving DecidableEq, Repr

namespace BillingCall

variable {T A : Type}

/-- Whether the call takes bills out of the pending times. -/
def removes : BillingCall T A → Bool
  | onBlock .. | removeSubjectiveBilling .. | removeExpired .. => true
  | _ => false

/-- Whether a `subjective_bill` in the pending block has come since the last `abort_block`, after
the call. -/
def dirtyAfter (dirty : Bool) : BillingCall T A → Bool
  | subjectiveBill _ _ _ _ inPendingBlock => dirty || inPendingBlock
  | abortBlock => false
  | _ => dirty

/-- The most the call adds to the bills. -/
def billed : BillingCall T A → ℕ
  | subjectiveBill _ _ _ elapsed _ => (billOf elapsed).toNat
  | _ => 0

/-- No call that removes bills comes while a `subjective_bill` in the pending block is not yet
followed by `abort_block`; `dirty` is whether one is before the first call. -/
inductive Ordered : Bool → List (BillingCall T A) → Prop
  | nil (dirty : Bool) : Ordered dirty []
  | cons {dirty : Bool} {call : BillingCall T A} {calls : List (BillingCall T A)} :
    (call.removes = true → dirty = false) → Ordered (call.dirtyAfter dirty) calls →
      Ordered dirty (call :: calls)

instance decidableOrdered : ∀ (dirty : Bool) (calls : List (BillingCall T A)),
    Decidable (Ordered dirty calls)
  | dirty, [] => isTrue (.nil dirty)
  | dirty, call :: calls =>
    if hfirst : call.removes = true → dirty = false then
      match decidableOrdered (call.dirtyAfter dirty) calls with
      | isTrue hrest => isTrue (.cons hfirst hrest)
      | isFalse hrest => isFalse fun | .cons _ h => hrest h
    else isFalse fun | .cons h _ => hfirst h

/-- A run that removes nothing is ordered from any start. -/
theorem ordered_of_not_removes : ∀ {calls : List (BillingCall T A)} (dirty : Bool),
    (∀ c ∈ calls, c.removes = false) → Ordered dirty calls
  | [], dirty, _ => .nil dirty
  | c :: calls, dirty, h => by
    refine .cons (fun hc => ?_) (ordered_of_not_removes _ fun c' hc' =>
      h c' (List.mem_cons_of_mem c hc'))
    rw [h c List.mem_cons_self] at hc
    exact absurd hc Bool.false_ne_true

variable [DecidableEq T] [DecidableEq A]

/-- The call on the object; `remove_expired`'s result is not kept. -/
def exec : BillingCall T A → EStateM SubjectiveBillingError (SubjectiveBilling T A) Unit
  | disable => modify fun s => { s with disabled := true }
  | disableAccount a => modify fun s => { s with disabledAccounts := s.disabledAccounts.insert a }
  | subjectiveBill id expire firstAuth elapsed inPendingBlock =>
    SubjectiveBilling.subjectiveBill id expire firstAuth elapsed inPendingBlock
  | subjectiveBillFailure firstAuth elapsed now =>
    SubjectiveBilling.subjectiveBillFailure firstAuth elapsed now
  | abortBlock => modify SubjectiveBilling.abortBlock
  | onBlock bsp now => SubjectiveBilling.onBlock bsp now
  | removeSubjectiveBilling trxId timeOrdinal =>
    SubjectiveBilling.removeSubjectiveBilling trxId timeOrdinal
  | removeExpired pendingBlockTime now budget => do
    let _ ← SubjectiveBilling.removeExpired pendingBlockTime now budget
    pure ()

/-- **Each call keeps the invariant**, when it removes bills only with no block bill left and the
bills stay below `2^64`, and adds at most its bill to the sum. -/
theorem inv_exec (call : BillingCall T A) {s : SubjectiveBilling T A} {dirty : Bool}
    (h : s.Inv dirty) (hord : call.removes = true → dirty = false)
    (hbound : s.billedAll + call.billed < 2 ^ 64) :
    (stateOf (call.exec.run s)).Inv (call.dirtyAfter dirty) ∧
      (stateOf (call.exec.run s)).billedAll ≤ s.billedAll + call.billed := by
  cases call with
  | disable => exact ⟨h.of_eq rfl (fun _ => rfl) rfl, Nat.le_add_right _ _⟩
  | disableAccount a => exact ⟨h.of_eq rfl (fun _ => rfl) rfl, Nat.le_add_right _ _⟩
  | subjectiveBill id expire firstAuth elapsed inPendingBlock =>
    exact subjectiveBill_inv h id expire firstAuth elapsed inPendingBlock hbound
  | subjectiveBillFailure firstAuth elapsed now =>
    have hf := subjectiveBillFailure_inv h firstAuth elapsed now
    exact ⟨hf.1, hf.2.le.trans (Nat.le_add_right _ _)⟩
  | abortBlock => exact ⟨abortBlock_inv h, Nat.le_add_right _ _⟩
  -- the removals come with no block bill left
  | onBlock bsp now =>
    obtain rfl := hord rfl
    have hb := onBlock_inv h bsp now
    exact ⟨hb.1, hb.2.trans (Nat.le_add_right _ _)⟩
  | removeSubjectiveBilling trxId timeOrdinal =>
    obtain rfl := hord rfl
    obtain ⟨s', hrun, hinv, hle⟩ := removeSubjectiveBilling_inv h trxId timeOrdinal
    rw [exec, hrun, stateOf_ok]
    exact ⟨hinv, hle.trans (Nat.le_add_right _ _)⟩
  | removeExpired pendingBlockTime now budget =>
    obtain rfl := hord rfl
    have hr := removeExpired_inv h pendingBlockTime now budget
    rw [exec, stateOf_run_bind_pure]
    exact ⟨hr.1, hr.2.trans (Nat.le_add_right _ _)⟩

end BillingCall

namespace SubjectiveBilling

variable {T A : Type} [DecidableEq T] [DecidableEq A]

/-- The object after the calls, one after another; a call that throws leaves the object as it
left it. -/
def runCalls (s : SubjectiveBilling T A) (calls : List (BillingCall T A)) : SubjectiveBilling T A :=
  calls.foldl (fun s call => stateOf (call.exec.run s)) s

/-- **A run of calls keeps the invariant** when it is ordered and its bills stay below `2^64`: by
induction on the calls, each kept by `BillingCall.inv_exec`, the sum left for the rest shrinking by
at least what the call added. -/
theorem inv_runCalls : ∀ (calls : List (BillingCall T A)) {s : SubjectiveBilling T A}
    {dirty : Bool}, s.Inv dirty → BillingCall.Ordered dirty calls →
    s.billedAll + (calls.map BillingCall.billed).sum < 2 ^ 64 → ∃ dirty', (runCalls s calls).Inv dirty'
  | [], _, dirty, h, _, _ => ⟨dirty, h⟩
  | call :: calls, s, dirty, h, .cons hfirst hord, hbound => by
    rw [List.map_cons, List.sum_cons] at hbound
    obtain ⟨hinv, hle⟩ := call.inv_exec h hfirst (by omega)
    have hrest : (stateOf (call.exec.run s)).billedAll + (calls.map BillingCall.billed).sum <
        2 ^ 64 := by
      omega
    exact inv_runCalls calls hinv hord hrest

/-- **The records of the bills agree after every ordered run** whose bills stay below `2^64`:
each account's `pending_cpu_us` is the sum of its transactions' bills and at least its block bill,
each bill a removal takes is counted in its account's pending time, and `get_subjective_bill` does
not throw its logic error. -/
theorem pendingCpuUs_eq_billed (calls : List (BillingCall T A))
    (hord : BillingCall.Ordered false calls) (hbound : (calls.map BillingCall.billed).sum < 2 ^ 64)
    (a : A) :
    let s := runCalls initial calls
    (s.pendingOf a).toNat = s.billedOf a ∧ s.blockOf a ≤ s.pendingOf a ∧
      (∀ e ∈ s.trxCacheIndex, e.subjectiveCpuBill.toUInt64 ≤ s.pendingOf e.account) ∧
      ∀ now, s.getSubjectiveBill a now ≠
        .error (.txResourceExhaustion "Logic error subjective billing \x7ba\x7d") := by
  have hstart : (initial : SubjectiveBilling T A).billedAll = 0 := rfl
  obtain ⟨dirty, h⟩ := inv_runCalls calls initial_inv hord (by rw [hstart, Nat.zero_add]; exact hbound)
  exact ⟨h.pending a, h.blockOf_le a, fun e he => h.bill_le he,
    fun now => h.getSubjectiveBill_ne_logicError a now⟩

/-- A bill in the pending block, `abort_block`, then the block that includes the transaction. -/
def blockRun : List (BillingCall ℕ ℕ) :=
  [.subjectiveBill 1 0 7 100 true, .abortBlock, .onBlock (some [1]) 0]

theorem pendingCpuUs_eq_billed_blockRun :
    BillingCall.Ordered false blockRun ∧ (blockRun.map BillingCall.billed).sum < 2 ^ 64 ∧
      ((runCalls initial blockRun).pendingOf 7).toNat = (runCalls initial blockRun).billedOf 7 := by
  have hord : BillingCall.Ordered false blockRun := by decide
  have hbound : (blockRun.map BillingCall.billed).sum < 2 ^ 64 := by decide
  exact ⟨hord, hbound, (pendingCpuUs_eq_billed blockRun hord hbound 7).1⟩

/-- `n` transactions of account `0`, with ids `0, …, n - 1`, each billed the most a `uint32_t`
holds, outside the pending block. -/
def manyBills (n : ℕ) : List (BillingCall ℕ ℕ) :=
  (List.range n).map fun k => .subjectiveBill k 0 0 0xFFFFFFFF false

/-- After `n` of those bills the cache holds the `n` transactions, and account `0`'s pending time
is their sum modulo `2^64`: by induction on `n`, each bill a new transaction's. -/
theorem runCalls_manyBills (n : ℕ) :
    (runCalls initial (manyBills n)).disabled = false ∧
      (runCalls initial (manyBills n)).disabledAccounts = [] ∧
      (runCalls initial (manyBills n)).trxCacheIndex =
        (List.range n).map (fun k => ⟨k, 0, 0xFFFFFFFF, 0⟩) ∧
      ((runCalls initial (manyBills n)).pendingOf 0).toNat = n * 0xFFFFFFFF % 2 ^ 64 := by
  induction n with
  | zero => exact ⟨rfl, rfl, rfl, rfl⟩
  | succ n ih =>
    obtain ⟨hdis, hacc, hidx, hpend⟩ := ih
    have hbill : billOf (0xFFFFFFFF : Int64) = 0xFFFFFFFF := by decide
    have hrun : runCalls initial (manyBills (n + 1)) =
        stateOf ((SubjectiveBilling.subjectiveBill n 0 0 0xFFFFFFFF false).run
          (runCalls initial (manyBills n))) := by
      rw [manyBills, List.range_succ, List.map_append, runCalls, List.foldl_append]
      rfl
    have hen : (!(runCalls initial (manyBills n)).disabled &&
        decide (0 ∉ (runCalls initial (manyBills n)).disabledAccounts)) = true := by
      rw [hdis, hacc]
      rfl
    have hfresh : ((runCalls initial (manyBills n)).trxCacheIndex.any
        fun x => decide (x.trxId = n)) = false := by
      rw [hidx]
      simp only [List.any_map, List.any_eq_false, List.mem_range, Function.comp_apply,
        decide_eq_true_eq]
      exact fun k hk => Nat.ne_of_lt hk
    rw [hrun, subjectiveBill_run_of_fresh hen hfresh, stateOf_ok, if_neg Bool.false_ne_true,
      hbill]
    refine ⟨hdis, hacc, ?_, ?_⟩
    · rw [addEntry, hidx, List.range_succ, List.map_append]
      rfl
    · rw [pendingOf_addEntry, if_pos rfl, UInt64.toNat_add, hpend]
      have h32 : (0xFFFFFFFF : UInt32).toUInt64.toNat = 0xFFFFFFFF := by decide
      rw [h32]
      omega

theorem billedOf_manyBills (n : ℕ) :
    (runCalls initial (manyBills n)).billedOf 0 = n * 0xFFFFFFFF := by
  have hbill : ((fun e : TrxCacheEntry ℕ ℕ => if e.account = 0 then e.subjectiveCpuBill.toNat else 0) ∘
      fun k => (⟨k, 0, 0xFFFFFFFF, 0⟩ : TrxCacheEntry ℕ ℕ)) = fun _ => 0xFFFFFFFF := by
    funext k
    rfl
  rw [billedOf, (runCalls_manyBills n).2.2.1, List.map_map, hbill, List.map_const',
    List.sum_replicate, List.length_range, smul_eq_mul]

/-- **Without the bound, `pending_cpu_us` wraps**: `2^32 + 2` transactions of account `0` billed
the most a `uint32_t` holds, a run that removes nothing and so is ordered, leave its pending time
at `2^32 - 2`, far short of their sum. -/
theorem pendingCpuUs_wraps :
    BillingCall.Ordered false (manyBills (2 ^ 32 + 2)) ∧
      ((runCalls initial (manyBills (2 ^ 32 + 2))).pendingOf 0).toNat = 2 ^ 32 - 2 ∧
      (runCalls initial (manyBills (2 ^ 32 + 2))).billedOf 0 = (2 ^ 32 + 2) * (2 ^ 32 - 1) := by
  have hord : BillingCall.Ordered false (manyBills (2 ^ 32 + 2)) := by
    refine BillingCall.ordered_of_not_removes false fun c hc => ?_
    obtain ⟨k, -, rfl⟩ := List.mem_map.mp hc
    rfl
  refine ⟨hord, ?_, ?_⟩
  · rw [(runCalls_manyBills _).2.2.2]
    norm_num
  · rw [billedOf_manyBills]
    norm_num

end SubjectiveBilling

end Eosio
