import Mathlib
import TaurusNode.Lib.Fallible
import TaurusNode.Lib.KeyedList

/-!
# The unapplied transaction queue

A model of `eosio::chain::unapplied_transaction_queue`
(libraries/chain/include/eosio/chain/unapplied_transaction_queue.hpp): the transactions the
producer has still to apply, one per id, with two counters kept beside them, `size_in_bytes`
(the `calc_size` of the entries) and `incoming_count` (the entries of an incoming type). Every
add inserts the entry and then calls `added`, every removal calls `removed` and then erases, so
the counters follow the entries. `added` counts an incoming entry before it checks the size
limit, and throws `tx_resource_exhaustion` with the entry in the queue and in `incoming_count`,
but not in `size_in_bytes`; `clear` empties the queue and leaves both counters.

The queue is the list of its entries in insertion order: its `by_trx_id` index is the search by
id, its `by_expiry` index the least expiry, first inserted. Removing and erasing never throw,
and are functions of the queue; the adds may throw, and are `EStateM` computations, a throw
keeping what was written before it.

* `Counted`: the counters are the sums over the entries, in the code's 64-bit arithmetic, and
  no two entries share an id;
* every call that returns, other than `clear`, keeps `Counted` (`QueueOp.apply_counted`), and so
  does every run of them in which no call throws (`QueueOp.run_counted`);
* a throwing `add_incoming` leaves the new entry in the queue and in `incoming_count`, and not in
  `size_in_bytes` (`addIncoming_error`), so that a caller that catches the error and goes on
  erases or clears a queue whose counters are off
  (`QueueOp.addIncoming_throw_unbalances_counters`).
-/

namespace Eosio.Chain

open Fallible

/-- `trx_enum_type`. -/
inductive TrxEnumType
  | unknown
  | persisted
  | forked
  | aborted
  | incomingPersisted
  | incoming
deriving DecidableEq, Repr

/-- The types `added`, `removed` and `add_persisted` count in `incoming_count`. -/
def TrxEnumType.isIncoming (t : TrxEnumType) : Bool :=
  t == .incoming || t == .incomingPersisted

/-- The parts of `transaction_metadata` the queue reads. -/
structure TransactionMetadata (Id : Type) where
  id : Id
  /-- `get_estimated_size()`. -/
  estimatedSize : UInt32
  /-- `packed_trx()->expiration()`, as a time point. -/
  expiration : ℕ
deriving DecidableEq, Repr

/-- `unapplied_transaction`, without its `next` callback. -/
structure UnappliedTransaction (Id : Type) where
  trxMeta : TransactionMetadata Id
  expiry : ℕ
  trxType : TrxEnumType
  returnFailureTrace : Bool
deriving DecidableEq, Repr

/-- `id()`. -/
def UnappliedTransaction.id {Id : Type} (u : UnappliedTransaction Id) : Id :=
  u.trxMeta.id

/-- `unapplied_transaction_queue`. -/
structure UnappliedTransactionQueue (Id : Type) where
  queue : List (UnappliedTransaction Id)
  /-- Enforced for incoming transactions. -/
  maxTransactionQueueSize : UInt64
  sizeInBytes : UInt64
  /-- A `size_t`, 64 bits wide. -/
  incomingCount : UInt64
deriving DecidableEq, Repr

/-- What the queue throws. -/
inductive QueueError
  /-- `tx_resource_exhaustion`: "Transaction {id}, size {s} bytes would exceed configured
  incoming-transaction-queue-size-mb {qs}, current queue size {cs} bytes". -/
  | txResourceExhaustion (msg : String)
deriving DecidableEq, Repr

namespace UnappliedTransactionQueue

variable {Id : Type} [DecidableEq Id] (sizeofUnappliedTransaction : UInt64)

/-- The queue as constructed: empty, with the limit of 1 GiB. -/
def initial : UnappliedTransactionQueue Id :=
  ⟨[], 1024 * 1024 * 1024, 0, 0⟩

/-- `calc_size(trx)`: `sizeof(unapplied_transaction)`, a constant of the build, and the estimated
size of the transaction. -/
def calcSize (trx : TransactionMetadata Id) : UInt64 :=
  sizeofUnappliedTransaction + trx.estimatedSize.toUInt64

/-- `1` for an entry `incoming_count` counts. -/
def incomingWeight (u : UnappliedTransaction Id) : UInt64 :=
  if u.trxType.isIncoming then 1 else 0

section

variable (q : UnappliedTransactionQueue Id)

/-- `get<by_trx_id>().find(id)`. -/
def find (id : Id) : Option (UnappliedTransaction Id) :=
  q.queue.find? (·.id = id)

/-- `get_trx(id)`. -/
def getTrx (id : Id) : Option (TransactionMetadata Id) :=
  (q.find id).map (·.trxMeta)

/-- `set_max_transaction_queue_size(v)`. -/
def setMaxTransactionQueueSize (v : UInt64) : UnappliedTransactionQueue Id :=
  { q with maxTransactionQueueSize := v }

/-- `clear()`: the container only. -/
def clear : UnappliedTransactionQueue Id :=
  { q with queue := [] }

/-- `removed(itr)`: the counters without the entry. -/
def removed (e : UnappliedTransaction Id) : UnappliedTransactionQueue Id :=
  let q := if e.trxType.isIncoming then { q with incomingCount := q.incomingCount - 1 } else q
  { q with sizeInBytes := q.sizeInBytes - calcSize sizeofUnappliedTransaction e.trxMeta }

/-- `erase(itr)` of the index: the entry with the id of `e` leaves the queue. -/
def eraseEntry (e : UnappliedTransaction Id) : UnappliedTransactionQueue Id :=
  { q with queue := q.queue.filter (·.id ≠ e.id) }

/-- `removed(itr)`, then `erase(itr)`: how every removal takes an entry out. -/
def removeEntry (e : UnappliedTransaction Id) : UnappliedTransactionQueue Id :=
  (q.removed sizeofUnappliedTransaction e).eraseEntry e

/-- `erase(itr)`: the caller has reported to the entry's `next`. -/
def erase (e : UnappliedTransaction Id) : UnappliedTransactionQueue Id :=
  q.removeEntry sizeofUnappliedTransaction e

/-- `clear_applied(bs)`: the transactions of the block leave the queue. A receipt holds the
packed transaction (`some id`) or only its id (`none`), which is skipped. -/
def clearApplied (receipts : List (Option Id)) : UnappliedTransactionQueue Id :=
  if q.queue.isEmpty then q
  else receipts.foldl (fun q receipt =>
    match receipt with
    | some id =>
      match q.find id with
      | some itr => q.removeEntry sizeofUnappliedTransaction itr
      | none => q
    | none => q) q

/-- The entry `get<by_expiry>().begin()` points at: the least expiry, first inserted among
equals. -/
def expiryFront : Option (UnappliedTransaction Id) :=
  q.queue.argmin (·.expiry)

/-- The loop of `clear_expired(pending_block_time, deadline, callback)`: while the entry of least
expiry has expired, it is passed to `callback` and removed. `budget` is how many entries the
deadline leaves time for: the loop gives up, returning `false`, at the entry after them. The
fuel is the length of the queue, which every round shortens. -/
def clearExpiredLoop (pendingBlockTime : ℕ) :
    ℕ → ℕ → UnappliedTransactionQueue Id →
      Bool × List (TransactionMetadata Id × TrxEnumType) × UnappliedTransactionQueue Id
  | 0, _, q => (true, [], q)
  | fuel + 1, budget, q =>
    match q.expiryFront with
    | none => (true, [], q)
    | some itr =>
      if itr.expiry > pendingBlockTime then (true, [], q)
      else
        match budget with
        | 0 => (false, [], q)
        | budget + 1 =>
          let r := clearExpiredLoop pendingBlockTime fuel budget
            (q.removeEntry sizeofUnappliedTransaction itr)
          (r.1, (itr.trxMeta, itr.trxType) :: r.2.1, r.2.2)

/-- `clear_expired(pending_block_time, deadline, callback)`: whether every expired entry was
removed before the deadline, the transactions passed to `callback`, and the queue. -/
def clearExpired (pendingBlockTime budget : ℕ) :
    Bool × List (TransactionMetadata Id × TrxEnumType) × UnappliedTransactionQueue Id :=
  clearExpiredLoop sizeofUnappliedTransaction pendingBlockTime q.queue.length budget q

end

/-- `queue.insert(e)`: the entry goes in unless one with its id is there; whether it did. -/
def insert (e : UnappliedTransaction Id) : EStateM QueueError (UnappliedTransactionQueue Id) Bool := do
  let q ← get
  if q.queue.any (·.id == e.id) then pure false
  else do
    modify fun q => { q with queue := q.queue ++ [e] }
    pure true

/-- `added(itr)`: an incoming entry is counted, then checked against the limit; the size goes in
once the check has passed. -/
def added (e : UnappliedTransaction Id) : EStateM QueueError (UnappliedTransactionQueue Id) Unit := do
  let size := calcSize sizeofUnappliedTransaction e.trxMeta
  if e.trxType.isIncoming then
    modify fun q => { q with incomingCount := q.incomingCount + 1 }
    let q ← get
    unless q.sizeInBytes + size < q.maxTransactionQueueSize do
      throw (.txResourceExhaustion "Transaction \x7bid\x7d, size \x7bs\x7d bytes would exceed configured incoming-transaction-queue-size-mb \x7bqs\x7d, current queue size \x7bcs\x7d bytes")
  modify fun q => { q with sizeInBytes := q.sizeInBytes + size }

/-- The statement every add shares: `queue.insert(...)`, then `added` if the insert took place. -/
def insertAndAdd (e : UnappliedTransaction Id) :
    EStateM QueueError (UnappliedTransactionQueue Id) Unit := do
  if ← insert e then added sizeofUnappliedTransaction e

/-- `add_incoming(trx, persist_until_expired, return_failure_trace, next)`; a duplicate is
reported to `next`, which is not modelled. -/
def addIncoming (trx : TransactionMetadata Id) (persistUntilExpired returnFailureTrace : Bool) :
    EStateM QueueError (UnappliedTransactionQueue Id) Unit := do
  let q ← get
  match q.find trx.id with
  | none =>
    insertAndAdd sizeofUnappliedTransaction ⟨trx, trx.expiration,
      if persistUntilExpired then .incomingPersisted else .incoming, returnFailureTrace⟩
  | some _ => pure ()

/-- `add_persisted(trx)`: a new transaction goes in as persisted; a queued one not persisted yet
becomes so, leaving `incoming_count` if it was counted there. -/
def addPersisted (trx : TransactionMetadata Id) :
    EStateM QueueError (UnappliedTransactionQueue Id) Unit := do
  let q ← get
  match q.find trx.id with
  | none => insertAndAdd sizeofUnappliedTransaction ⟨trx, trx.expiration, .persisted, false⟩
  | some itr =>
    if itr.trxType ≠ .persisted then
      if itr.trxType.isIncoming then
        modify fun q => { q with incomingCount := q.incomingCount - 1 }
      modify fun q => { q with queue := q.queue.map fun u =>
        if u.id = itr.id then { u with trxType := .persisted } else u }

/-- `add_forked(forked_branch)`: the branch is in reverse order, so its blocks are taken from
the last, each block's transactions in order. -/
def addForked (forkedBranch : List (List (TransactionMetadata Id))) :
    EStateM QueueError (UnappliedTransactionQueue Id) Unit :=
  forkedBranch.reverse.forM fun trxsMetas => trxsMetas.forM fun trx =>
    insertAndAdd sizeofUnappliedTransaction ⟨trx, trx.expiration, .forked, false⟩

/-- `add_aborted(aborted_trxs)`. -/
def addAborted (abortedTrxs : List (TransactionMetadata Id)) :
    EStateM QueueError (UnappliedTransactionQueue Id) Unit :=
  abortedTrxs.forM fun trx =>
    insertAndAdd sizeofUnappliedTransaction ⟨trx, trx.expiration, .aborted, false⟩

/-! ### The counters -/

/-- The counters are the sums over the entries, in the code's 64-bit arithmetic, and no two
entries share an id. -/
structure Counted (q : UnappliedTransactionQueue Id) : Prop where
  ids_nodup : (q.queue.map UnappliedTransaction.id).Nodup
  sizeInBytes_eq :
    q.sizeInBytes = (q.queue.map fun u => calcSize sizeofUnappliedTransaction u.trxMeta).sum
  incomingCount_eq : q.incomingCount = (q.queue.map incomingWeight).sum

variable {sizeofUnappliedTransaction} {q q' : UnappliedTransactionQueue Id}
  {e : UnappliedTransaction Id}

omit [DecidableEq Id] in
theorem counted_initial : Counted sizeofUnappliedTransaction (initial : UnappliedTransactionQueue Id) :=
  ⟨List.nodup_nil, rfl, rfl⟩

theorem find_eq_some_iff (h : Counted sizeofUnappliedTransaction q) {id : Id} :
    q.find id = some e ↔ e ∈ q.queue ∧ e.id = id :=
  KeyedList.find?_key_eq_some_iff UnappliedTransaction.id h.ids_nodup

omit [DecidableEq Id] in
theorem removed_incomingCount :
    (q.removed sizeofUnappliedTransaction e).incomingCount = q.incomingCount - incomingWeight e := by
  unfold removed incomingWeight
  split <;> simp [*]

omit [DecidableEq Id] in
theorem removed_sizeInBytes :
    (q.removed sizeofUnappliedTransaction e).sizeInBytes =
      q.sizeInBytes - calcSize sizeofUnappliedTransaction e.trxMeta := by
  unfold removed
  split <;> rfl

omit [DecidableEq Id] in
theorem removed_queue : (q.removed sizeofUnappliedTransaction e).queue = q.queue := by
  unfold removed
  split <;> rfl

theorem removeEntry_queue :
    (q.removeEntry sizeofUnappliedTransaction e).queue = q.queue.filter (·.id ≠ e.id) := by
  rw [removeEntry, eraseEntry, removed_queue]

/-- **Removing an entry keeps the counters**: `removed` takes out what the entry counts for, and
the entry is the one erased. -/
theorem Counted.removeEntry (h : Counted sizeofUnappliedTransaction q) (he : e ∈ q.queue) :
    Counted sizeofUnappliedTransaction (q.removeEntry sizeofUnappliedTransaction e) := by
  -- the sums over the entries left, as `KeyedList` reads them
  have hsize := KeyedList.sum_map_filter_key_ne UnappliedTransaction.id
    (fun u => calcSize sizeofUnappliedTransaction u.trxMeta) h.ids_nodup he
  have hcount := KeyedList.sum_map_filter_key_ne UnappliedTransaction.id incomingWeight h.ids_nodup he
  refine ⟨?_, ?_, ?_⟩
  · rw [removeEntry_queue]
    exact KeyedList.nodup_map_filter _ h.ids_nodup _
  · show (q.removed sizeofUnappliedTransaction e).sizeInBytes = _
    rw [removed_sizeInBytes, removeEntry_queue, h.sizeInBytes_eq, ← hsize, add_sub_cancel_right]
  · show (q.removed sizeofUnappliedTransaction e).incomingCount = _
    rw [removed_incomingCount, removeEntry_queue, h.incomingCount_eq, ← hcount,
      add_sub_cancel_right]

/-- **Appending an entry with a new id and counting it keeps the counters.** -/
theorem Counted.append (h : Counted sizeofUnappliedTransaction q)
    (hnew : q.queue.any (·.id == e.id) = false) :
    Counted sizeofUnappliedTransaction { q with
      queue := q.queue ++ [e]
      sizeInBytes := q.sizeInBytes + calcSize sizeofUnappliedTransaction e.trxMeta
      incomingCount := q.incomingCount + incomingWeight e } := by
  have hid : e.id ∉ q.queue.map UnappliedTransaction.id := by
    simpa using hnew
  refine ⟨KeyedList.nodup_map_append_singleton _ h.ids_nodup hid, ?_, ?_⟩
  · simp only [List.map_append, List.map_singleton, List.sum_append, List.sum_singleton,
      h.sizeInBytes_eq]
  · simp only [List.map_append, List.map_singleton, List.sum_append, List.sum_singleton,
      h.incomingCount_eq]

omit [DecidableEq Id] in
theorem added_eq_ok {x : Unit} (h : (added sizeofUnappliedTransaction e).run q = .ok x q') :
    q' = { q with
      sizeInBytes := q.sizeInBytes + calcSize sizeofUnappliedTransaction e.trxMeta
      incomingCount := q.incomingCount + incomingWeight e } := by
  unfold added at h
  dsimp only at h
  unfold incomingWeight
  split at h
  · next hinc =>
    rw [run_bind_modify, run_bind_get] at h
    split at h
    · cases h
      simp [hinc]
    · cases h
  · next hinc =>
    cases h
    simp [hinc]

omit [DecidableEq Id] in
/-- **A throwing `added` has counted the entry in `incoming_count` only.** -/
theorem added_eq_error {err : QueueError}
    (h : (added sizeofUnappliedTransaction e).run q = .error err q') :
    e.trxType.isIncoming = true ∧ q' = { q with incomingCount := q.incomingCount + 1 } := by
  unfold added at h
  dsimp only at h
  split at h
  · next hinc =>
    rw [run_bind_modify, run_bind_get] at h
    split at h
    · cases h
    · cases h
      exact ⟨hinc, rfl⟩
  · cases h

omit [DecidableEq Id] in
theorem added_of_not_incoming (hinc : e.trxType.isIncoming = false) :
    (added sizeofUnappliedTransaction e).run q = .ok ⟨⟩ { q with
      sizeInBytes := q.sizeInBytes + calcSize sizeofUnappliedTransaction e.trxMeta } := by
  unfold added
  dsimp only
  rw [if_neg (by simp [hinc])]
  rfl

theorem insert_of_mem (hmem : q.queue.any (·.id == e.id) = true) :
    (insert e).run q = .ok false q := by
  rw [insert, run_bind_get, if_pos hmem]
  rfl

theorem insert_of_not_mem (hnew : q.queue.any (·.id == e.id) = false) :
    (insert e).run q = .ok true { q with queue := q.queue ++ [e] } := by
  rw [insert, run_bind_get, if_neg (by simp [hnew])]
  rfl

/-- **An add that returns keeps the counters**: the entry went in and was counted, or was
there already. -/
theorem Counted.insertAndAdd (h : Counted sizeofUnappliedTransaction q) {x : Unit}
    (hrun : (insertAndAdd sizeofUnappliedTransaction e).run q = .ok x q') :
    Counted sizeofUnappliedTransaction q' := by
  unfold UnappliedTransactionQueue.insertAndAdd at hrun
  cases hnew : q.queue.any (·.id == e.id)
  · -- the entry goes in, and `added` counts it
    rw [run_bind, insert_of_not_mem hnew] at hrun
    rw [added_eq_ok hrun]
    exact h.append hnew
  · -- an entry with the id is there: nothing changes
    rw [run_bind, insert_of_mem hnew] at hrun
    cases hrun
    exact h

theorem insertAndAdd_error {err : QueueError}
    (hrun : (insertAndAdd sizeofUnappliedTransaction e).run q = .error err q') :
    e.trxType.isIncoming = true ∧ q.queue.any (·.id == e.id) = false ∧
      q' = { q with queue := q.queue ++ [e], incomingCount := q.incomingCount + 1 } := by
  unfold UnappliedTransactionQueue.insertAndAdd at hrun
  cases hnew : q.queue.any (·.id == e.id)
  · rw [run_bind, insert_of_not_mem hnew] at hrun
    obtain ⟨hinc, rfl⟩ := added_eq_error hrun
    exact ⟨hinc, rfl, rfl⟩
  · rw [run_bind, insert_of_mem hnew] at hrun
    cases hrun

/-- An add of a type `added` does not check never throws. -/
theorem insertAndAdd_of_not_incoming (h : Counted sizeofUnappliedTransaction q)
    (hinc : e.trxType.isIncoming = false) :
    ∃ q', (insertAndAdd sizeofUnappliedTransaction e).run q = .ok ⟨⟩ q' ∧
      Counted sizeofUnappliedTransaction q' := by
  unfold UnappliedTransactionQueue.insertAndAdd
  cases hnew : q.queue.any (·.id == e.id)
  · rw [run_bind, insert_of_not_mem hnew]
    refine ⟨_, added_of_not_incoming hinc, ?_⟩
    have happ := h.append (e := e) hnew
    rwa [incomingWeight, if_neg (by simp [hinc]), add_zero] at happ
  · rw [run_bind, insert_of_mem hnew]
    exact ⟨q, rfl, h⟩


/-- **Making a queued entry persisted keeps the counters**, once `incoming_count` has let go of
it: the update keeps every id and every size. -/
theorem Counted.retype (h : Counted sizeofUnappliedTransaction q) {itr : UnappliedTransaction Id}
    (hitr : itr ∈ q.queue) :
    Counted sizeofUnappliedTransaction { q with
      queue := q.queue.map fun u => if u.id = itr.id then { u with trxType := .persisted } else u
      incomingCount := q.incomingCount - incomingWeight itr } := by
  have hsize := KeyedList.sum_map_update_key UnappliedTransaction.id
    (fun u => calcSize sizeofUnappliedTransaction u.trxMeta) h.ids_nodup hitr
    (fun u => { u with trxType := .persisted })
  have hcount := KeyedList.sum_map_update_key UnappliedTransaction.id incomingWeight h.ids_nodup
    hitr (fun u => { u with trxType := .persisted })
  -- a persisted entry is not counted in `incoming_count`
  have hpersisted : incomingWeight { itr with trxType := .persisted } = 0 := rfl
  rw [hpersisted, add_zero] at hcount
  refine ⟨?_, ?_, ?_⟩
  · show ((q.queue.map _).map UnappliedTransaction.id).Nodup
    rw [KeyedList.map_key_update UnappliedTransaction.id
      (fun u : UnappliedTransaction Id => { u with trxType := .persisted }) fun _ => rfl]
    exact h.ids_nodup
  · show q.sizeInBytes = _
    rw [h.sizeInBytes_eq]
    exact (add_right_cancel hsize).symm
  · show q.incomingCount - incomingWeight itr = _
    rw [h.incomingCount_eq, ← hcount, add_sub_cancel_right]

theorem Counted.addIncoming (h : Counted sizeofUnappliedTransaction q)
    {trx : TransactionMetadata Id} {persistUntilExpired returnFailureTrace : Bool} {x : Unit}
    (hrun : (addIncoming sizeofUnappliedTransaction trx persistUntilExpired
      returnFailureTrace).run q = .ok x q') :
    Counted sizeofUnappliedTransaction q' := by
  unfold UnappliedTransactionQueue.addIncoming at hrun
  rw [run_bind_get] at hrun
  cases hfind : q.find trx.id with
  | none =>
    rw [hfind] at hrun
    exact h.insertAndAdd hrun
  | some itr =>
    -- a duplicate leaves the queue as it is
    rw [hfind] at hrun
    cases hrun
    exact h

theorem Counted.addPersisted (h : Counted sizeofUnappliedTransaction q)
    {trx : TransactionMetadata Id} {x : Unit}
    (hrun : (addPersisted sizeofUnappliedTransaction trx).run q = .ok x q') :
    Counted sizeofUnappliedTransaction q' := by
  unfold UnappliedTransactionQueue.addPersisted at hrun
  rw [run_bind_get] at hrun
  cases hfind : q.find trx.id with
  | none =>
    rw [hfind] at hrun
    exact h.insertAndAdd hrun
  | some itr =>
    rw [hfind] at hrun
    have hretype := h.retype ((find_eq_some_iff h).mp hfind).1
    by_cases hpersisted : itr.trxType = .persisted
    · simp only [hpersisted, ne_eq, not_true_eq_false, if_false] at hrun
      cases hrun
      exact h
    · -- the entry becomes persisted, and leaves `incoming_count` if it was counted there
      cases hinc : itr.trxType.isIncoming
      · have hweight : incomingWeight itr = 0 := by
          rw [incomingWeight, if_neg (by simp [hinc])]
        simp only [hpersisted, hinc, ne_eq, not_false_eq_true, if_true, Bool.false_eq_true,
          if_false, run_modify] at hrun
        cases hrun
        rwa [hweight, sub_zero] at hretype
      · have hweight : incomingWeight itr = 1 := by
          rw [incomingWeight, if_pos hinc]
        simp only [hpersisted, hinc, ne_eq, not_false_eq_true, if_true, run_bind_modify,
          run_modify] at hrun
        cases hrun
        rwa [hweight] at hretype


/-- **A throwing `add_incoming` leaves its entry in the queue and in `incoming_count`, and not in
`size_in_bytes`.** -/
theorem addIncoming_error {trx : TransactionMetadata Id}
    {persistUntilExpired returnFailureTrace : Bool} {err : QueueError}
    (hrun : (addIncoming sizeofUnappliedTransaction trx persistUntilExpired
      returnFailureTrace).run q = .error err q') :
    q.find trx.id = none ∧ ∃ e : UnappliedTransaction Id, e.trxMeta = trx ∧
      e.trxType.isIncoming = true ∧
      q' = { q with queue := q.queue ++ [e], incomingCount := q.incomingCount + 1 } := by
  unfold UnappliedTransactionQueue.addIncoming at hrun
  rw [run_bind_get] at hrun
  cases hfind : q.find trx.id with
  | none =>
    rw [hfind] at hrun
    obtain ⟨hinc, -, rfl⟩ := insertAndAdd_error hrun
    exact ⟨rfl, _, rfl, hinc, rfl⟩
  | some itr =>
    rw [hfind] at hrun
    cases hrun

/-- **`add_aborted` returns, keeping the counters**: an aborted entry is not checked against the
limit. -/
theorem Counted.addAborted (h : Counted sizeofUnappliedTransaction q)
    (abortedTrxs : List (TransactionMetadata Id)) :
    ∃ q', (addAborted sizeofUnappliedTransaction abortedTrxs).run q = .ok ⟨⟩ q' ∧
      Counted sizeofUnappliedTransaction q' :=
  run_forM_invariant (Counted sizeofUnappliedTransaction)
    (fun _ _ _ hq => insertAndAdd_of_not_incoming hq rfl) q h

/-- **`add_forked` returns, keeping the counters**: the loop over the blocks keeps them, since the
loop over each block's transactions does. -/
theorem Counted.addForked (h : Counted sizeofUnappliedTransaction q)
    (forkedBranch : List (List (TransactionMetadata Id))) :
    ∃ q', (addForked sizeofUnappliedTransaction forkedBranch).run q = .ok ⟨⟩ q' ∧
      Counted sizeofUnappliedTransaction q' :=
  run_forM_invariant (Counted sizeofUnappliedTransaction)
    (fun _ _ _ hq => run_forM_invariant (Counted sizeofUnappliedTransaction)
      (fun _ _ _ hq' => insertAndAdd_of_not_incoming hq' rfl) _ hq) q h

/-- **`clear_applied` keeps the counters**: each receipt found in the queue removes its entry. -/
theorem Counted.clearApplied (h : Counted sizeofUnappliedTransaction q)
    (receipts : List (Option Id)) :
    Counted sizeofUnappliedTransaction (q.clearApplied sizeofUnappliedTransaction receipts) := by
  unfold UnappliedTransactionQueue.clearApplied
  split
  · exact h
  · next hempty =>
    clear hempty
    -- the fold over the receipts, from any queue that keeps the counters
    induction receipts generalizing q with
    | nil => exact h
    | cons receipt receipts ih =>
      rw [List.foldl_cons]
      apply ih
      rcases receipt with _ | id
      · exact h
      · dsimp only
        cases hfind : q.find id with
        | none => exact h
        | some itr => exact h.removeEntry ((find_eq_some_iff h).mp hfind).1

/-- **The loop of `clear_expired` keeps the counters**, whether it ran out of entries, reached
one not expired or gave up at the deadline: each round removes the front entry. -/
theorem Counted.clearExpiredLoop (h : Counted sizeofUnappliedTransaction q)
    (pendingBlockTime fuel budget : ℕ) :
    Counted sizeofUnappliedTransaction
      (clearExpiredLoop sizeofUnappliedTransaction pendingBlockTime fuel budget q).2.2 := by
  induction fuel generalizing budget q with
  | zero => exact h
  | succ fuel ih =>
    rw [UnappliedTransactionQueue.clearExpiredLoop]
    cases hfront : q.expiryFront with
    | none => exact h
    | some itr =>
      dsimp only
      split
      · exact h
      · cases budget with
        | zero => exact h
        | succ budget => exact ih (h.removeEntry (List.argmin_mem hfront)) budget

end UnappliedTransactionQueue

/-- The calls on the queue. -/
inductive QueueOp (Id : Type)
  | setMaxTransactionQueueSize (v : UInt64)
  | addIncoming (trx : TransactionMetadata Id) (persistUntilExpired returnFailureTrace : Bool)
  | addPersisted (trx : TransactionMetadata Id)
  | addForked (forkedBranch : List (List (TransactionMetadata Id)))
  | addAborted (abortedTrxs : List (TransactionMetadata Id))
  | clearApplied (receipts : List (Option Id))
  | clearExpired (pendingBlockTime budget : ℕ)
  /-- `erase(itr)`, of the entry with the id: the iterator the caller holds points into the
  queue. -/
  | erase (id : Id)
  | clear
deriving DecidableEq, Repr

namespace QueueOp

open UnappliedTransactionQueue

variable {Id : Type} [DecidableEq Id] (sizeofUnappliedTransaction : UInt64)

/-- One call; what `clear_expired` returns is dropped. -/
def apply : QueueOp Id → EStateM QueueError (UnappliedTransactionQueue Id) Unit
  | setMaxTransactionQueueSize v => modify (·.setMaxTransactionQueueSize v)
  | addIncoming trx persistUntilExpired returnFailureTrace =>
    UnappliedTransactionQueue.addIncoming sizeofUnappliedTransaction trx persistUntilExpired
      returnFailureTrace
  | addPersisted trx => UnappliedTransactionQueue.addPersisted sizeofUnappliedTransaction trx
  | addForked forkedBranch =>
    UnappliedTransactionQueue.addForked sizeofUnappliedTransaction forkedBranch
  | addAborted abortedTrxs =>
    UnappliedTransactionQueue.addAborted sizeofUnappliedTransaction abortedTrxs
  | clearApplied receipts => modify (·.clearApplied sizeofUnappliedTransaction receipts)
  | clearExpired pendingBlockTime budget =>
    modify fun q => (q.clearExpired sizeofUnappliedTransaction pendingBlockTime budget).2.2
  | erase id => modify fun q =>
    match q.find id with
    | some itr => q.erase sizeofUnappliedTransaction itr
    | none => q
  | clear => modify UnappliedTransactionQueue.clear

/-- A run of calls: a call that throws leaves the state it threw from, and the caller, which
catches `tx_resource_exhaustion`, goes on with the next call. The errors thrown, and the queue. -/
def run : List (QueueOp Id) → UnappliedTransactionQueue Id →
    List QueueError × UnappliedTransactionQueue Id
  | [], q => ([], q)
  | op :: ops, q =>
    match (op.apply sizeofUnappliedTransaction).run q with
    | .ok _ q' => run ops q'
    | .error err q' =>
      let r := run ops q'
      (err :: r.1, r.2)

variable {sizeofUnappliedTransaction} {q q' : UnappliedTransactionQueue Id}

/-- **Every call but `clear` that returns keeps the counters.** -/
theorem apply_counted (h : Counted sizeofUnappliedTransaction q) {op : QueueOp Id}
    (hop : op ≠ .clear) {x : Unit} (hrun : (op.apply sizeofUnappliedTransaction).run q = .ok x q') :
    Counted sizeofUnappliedTransaction q' := by
  cases op with
  | setMaxTransactionQueueSize v =>
    rw [apply, run_modify] at hrun
    cases hrun
    exact ⟨h.ids_nodup, h.sizeInBytes_eq, h.incomingCount_eq⟩
  | addIncoming trx persistUntilExpired returnFailureTrace => exact h.addIncoming hrun
  | addPersisted trx => exact h.addPersisted hrun
  | addForked forkedBranch =>
    obtain ⟨q'', hok, hq''⟩ := h.addForked forkedBranch
    rw [apply, hok] at hrun
    cases hrun
    exact hq''
  | addAborted abortedTrxs =>
    obtain ⟨q'', hok, hq''⟩ := h.addAborted abortedTrxs
    rw [apply, hok] at hrun
    cases hrun
    exact hq''
  | clearApplied receipts =>
    rw [apply, run_modify] at hrun
    cases hrun
    exact h.clearApplied receipts
  | clearExpired pendingBlockTime budget =>
    rw [apply, run_modify] at hrun
    cases hrun
    exact h.clearExpiredLoop pendingBlockTime _ budget
  | erase id =>
    rw [apply, run_modify] at hrun
    cases hrun
    cases hfind : q.find id with
    | none => exact h
    | some itr => exact h.removeEntry ((find_eq_some_iff h).mp hfind).1
  | clear => exact absurd rfl hop

/-- **A run of calls none of which is `clear` or throws keeps the counters.** -/
theorem run_counted (h : Counted sizeofUnappliedTransaction q) {ops : List (QueueOp Id)}
    (hops : ∀ op ∈ ops, op ≠ .clear) (hthrows : (run sizeofUnappliedTransaction ops q).1 = []) :
    Counted sizeofUnappliedTransaction (run sizeofUnappliedTransaction ops q).2 := by
  induction ops generalizing q with
  | nil => exact h
  | cons op ops ih =>
    have hrest : ∀ op ∈ ops, op ≠ .clear := fun op' hop' => hops op' (List.mem_cons_of_mem op hop')
    rw [run] at hthrows ⊢
    cases hrun : (op.apply sizeofUnappliedTransaction).run q with
    | ok x q'' =>
      rw [hrun] at hthrows
      exact ih (apply_counted h (hops op List.mem_cons_self) hrun) hrest hthrows
    | error err q'' =>
      -- the error is the first of the run's
      rw [hrun] at hthrows
      cases hthrows

/-- **A throwing `add_incoming` unbalances the counters.** On the queue as constructed, with the
limit set to `0`, `add_incoming` throws with the transaction in the queue and in `incoming_count`
but not in `size_in_bytes`; erasing it then takes `size_in_bytes` below zero, where it wraps,
and `clear` instead leaves `incoming_count` at `1` over an empty queue, whatever
`sizeof(unapplied_transaction)` is. -/
theorem addIncoming_throw_unbalances_counters (sizeofUnappliedTransaction : UInt64) :
    (run sizeofUnappliedTransaction [.setMaxTransactionQueueSize 0, .addIncoming ⟨1, 50, 10⟩ false false]
        (initial : UnappliedTransactionQueue ℕ)).1 ≠ [] ∧
      (run sizeofUnappliedTransaction [.setMaxTransactionQueueSize 0, .addIncoming ⟨1, 50, 10⟩ false false]
        (initial : UnappliedTransactionQueue ℕ)).2 =
        ⟨[⟨⟨1, 50, 10⟩, 10, .incoming, false⟩], 0, 0, 1⟩ ∧
      (run sizeofUnappliedTransaction
        [.setMaxTransactionQueueSize 0, .addIncoming ⟨1, 50, 10⟩ false false, .erase 1]
        (initial : UnappliedTransactionQueue ℕ)).2 = ⟨[], 0, 0 - (sizeofUnappliedTransaction + 50), 0⟩ ∧
      (run sizeofUnappliedTransaction
        [.setMaxTransactionQueueSize 0, .addIncoming ⟨1, 50, 10⟩ false false, .clear]
        (initial : UnappliedTransactionQueue ℕ)).2 = ⟨[], 0, 0, 1⟩ ∧
      ¬Counted sizeofUnappliedTransaction (run sizeofUnappliedTransaction
        [.setMaxTransactionQueueSize 0, .addIncoming ⟨1, 50, 10⟩ false false, .clear]
        (initial : UnappliedTransactionQueue ℕ)).2 := by
  refine ⟨nofun, rfl, rfl, rfl, fun h => ?_⟩
  -- `incoming_count` is `1` over no entry
  exact absurd h.incomingCount_eq (show ¬(1 : UInt64) = 0 by decide)

end QueueOp

end Eosio.Chain
