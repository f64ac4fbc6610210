import Mathlib
import TaurusNode.Lib.OrderedIndex
import TaurusNode.Lib.PartialRun

/-!
# Replay protection

A model of how the controller keeps an input transaction from being executed twice on a branch
(libraries/chain/controller.cpp, transaction_context.cpp). Each executed input transaction leaves
a `transaction_object` with its id and expiration; `record_transaction` creates it, and the
unique index `by_trx_id` makes a second one with the same id throw `tx_duplicate`. At the start
of every block, `clear_expired_input_transactions` removes the objects whose expiration is
before the time of the block, going up the index `by_expiration`; a transaction whose
expiration is before the time of the pending block fails `validate_expiration`.

Times are microseconds (`fc::time_point`), expirations seconds (`fc::time_point_sec`). A run is
a sequence of `start_block`s and pushes of input transactions, on one branch: a block must be
later than the one before (`block_header_state::next`). Whether a transaction runs through once
it is recorded (authorization, actions) is an input of the push: an exception there rolls back
the transaction's changes, its `transaction_object` with them.
-/

namespace Eosio.Chain

/-- `fc::time_point(time_point_sec)`. -/
def toTimePoint (sec : UInt32) : ℕ :=
  sec.toNat * 1000000

/-- `transaction_object`. -/
structure TransactionObject (Id : Type) where
  trxId : Id
  expiration : UInt32
deriving DecidableEq, Repr

/-- What deduplication reads of the controller: the time of the pending block (of the head block
between blocks), and `transaction_multi_index`, in the order the objects were created. -/
structure DedupState (Id : Type) where
  pendingBlockTime : ℕ
  transactions : List (TransactionObject Id)
deriving DecidableEq, Repr

/-- What the controller is configured with: `max_transaction_lifetime`, `skip_trx_checks()`
and `replay_head_time`. -/
structure DedupConfig where
  maxTransactionLifetime : UInt32
  skipTrxChecks : Bool
  replayHeadTime : Option ℕ
deriving DecidableEq, Repr

/-- The events of a branch. -/
inductive DedupEvent (Id : Type)
  /-- `start_block(when)`. -/
  | startBlock (when : ℕ)
  /-- `push_transaction` of an input transaction; `executes` is whether it runs through once it is
  recorded. -/
  | pushTransaction (trx : TransactionObject Id) (executes : Bool)
deriving DecidableEq, Repr

variable {Id : Type} [DecidableEq Id]

namespace DedupState

variable (s : DedupState Id)

/-- `controller::validate_expiration`: "transaction has expired" and "transaction expiration is
too far in the future". -/
def validateExpiration (maxTransactionLifetime expiration : UInt32) : Bool :=
  decide (toTimePoint expiration ≥ s.pendingBlockTime) &&
    decide (toTimePoint expiration ≤ s.pendingBlockTime + maxTransactionLifetime.toNat * 1000000)

/-- `transaction_context::record_transaction`: a second object with the id violates `by_trx_id`,
and the exception becomes `tx_duplicate`. -/
def recordTransaction (id : Id) (expire : UInt32) : Option (DedupState Id) :=
  if s.transactions.any (·.trxId = id) then none
  else some { s with transactions := s.transactions ++ [⟨id, expire⟩] }

/-- `clear_expired_input_transactions`: remove the first object of `by_expiration` while it has
expired at the time of the pending block. -/
def clearExpiredInputTransactions : DedupState Id :=
  { s with
    transactions := OrderedIndex.removeWhile (fun o => o.expiration.toNat)
      (fun o => decide (s.pendingBlockTime > toTimePoint o.expiration)) s.transactions.length
      s.transactions }

/-- `start_block(when)`: "next block must be in the future", then the expired transactions are
cleared at the time of the new block. -/
def startBlock (when : ℕ) : Option (DedupState Id) :=
  if when ≤ s.pendingBlockTime then none
  else some { s with pendingBlockTime := when }.clearExpiredInputTransactions

/-- `transaction_context::init_for_input_trx_common`: the checks, then the record. -/
def initForInputTrxCommon (maxTransactionLifetime : UInt32) (skipTrxChecks skipRecording : Bool)
    (trx : TransactionObject Id) : Option (DedupState Id) :=
  if !skipTrxChecks && !s.validateExpiration maxTransactionLifetime trx.expiration then none
  else if skipRecording then some s
  else s.recordTransaction trx.trxId trx.expiration

/-- `controller_impl::push_transaction` of an input transaction: the state after it, and whether
it got an executed receipt. An exception rolls its changes back. -/
def pushTransaction (cfg : DedupConfig) (trx : TransactionObject Id) (executes : Bool) :
    DedupState Id × Bool :=
  let skipRecording := match cfg.replayHeadTime with
    | some replayHeadTime => decide (toTimePoint trx.expiration ≤ replayHeadTime)
    | none => false
  match s.initForInputTrxCommon cfg.maxTransactionLifetime cfg.skipTrxChecks skipRecording trx with
  | some s' => if executes then (s', true) else (s, false)
  | none => (s, false)

end DedupState

namespace DedupEvent

/-- The transactions pushed by a sequence of events. -/
def pushed : List (DedupEvent Id) → List (TransactionObject Id)
  | [] => []
  | .startBlock _ :: events => pushed events
  | .pushTransaction trx _ :: events => trx :: pushed events

/-- One event: the state, and the executed receipts so far. -/
def step (cfg : DedupConfig) (sr : DedupState Id × List (TransactionObject Id)) :
    DedupEvent Id → Option (DedupState Id × List (TransactionObject Id))
  | .startBlock when => (sr.1.startBlock when).map fun s => (s, sr.2)
  | .pushTransaction trx executes =>
    let pushed := sr.1.pushTransaction cfg trx executes
    some (pushed.1, if pushed.2 then sr.2 ++ [trx] else sr.2)

/-- The events of a branch from a state: the state after them and the executed receipts, or
`none` when a block is not later than the one before. -/
def run (cfg : DedupConfig) (s : DedupState Id) (events : List (DedupEvent Id)) :
    Option (DedupState Id × List (TransactionObject Id)) :=
  events.foldlM (step cfg) (s, [])

end DedupEvent

end Eosio.Chain
