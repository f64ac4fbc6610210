import Mathlib
import TaurusNode.Chain.TransactionDedup

/-!
# No transaction is executed twice on a branch

The deduplication invariant `Inv s hist`, for the transactions `hist` executed on the branch so
far: their ids are distinct, and the index holds exactly those of them that have not expired at
the time of the pending block. The two comparisons agree: `clear_expired_input_transactions`
removes an object when the block time is strictly after its expiration
(`clearExpiredInputTransactions_transactions`), and `validate_expiration` accepts a transaction
when its expiration is at or after the block time. An executed transaction that is pushed again
is either still in the index, and `record_transaction` throws `tx_duplicate`, or expired, and
`validate_expiration` throws (`pushTransaction_of_mem`).

The ids of transactions are hashes of the transactions, expiration included: a run is taken
with one transaction per id (`IdsDetermine`).

## Main results

* `Inv.startBlock`, `Inv.pushTransaction`: each event keeps the invariant.
* `run_noDuplicateReceipts`: **along every branch, with the checks of transactions made and no
  replay window, no id gets two executed receipts; at every point, in particular at the start
  of every block, the index holds exactly the executed transactions that have not expired;
  and every later push of an executed transaction throws and leaves the state as it is.**
-/

namespace Eosio.Chain

variable {Id : Type}

/-- One transaction per id: an id is the hash of its transaction. -/
def IdsDetermine (l : List (TransactionObject Id)) : Prop :=
  ∀ o₁ ∈ l, ∀ o₂ ∈ l, o₁.trxId = o₂.trxId → o₁ = o₂

instance instDecidableIdsDetermine [DecidableEq Id] (l : List (TransactionObject Id)) :
    Decidable (IdsDetermine l) :=
  inferInstanceAs (Decidable (∀ o₁ ∈ l, ∀ o₂ ∈ l, o₁.trxId = o₂.trxId → o₁ = o₂))

namespace DedupState

variable (s : DedupState Id)

/-- The deduplication invariant, for the transactions executed on the branch. -/
structure Inv (hist : List (TransactionObject Id)) : Prop where
  hist_nodup : (hist.map (·.trxId)).Nodup
  mem_iff : ∀ o, o ∈ s.transactions ↔ o ∈ hist ∧ s.pendingBlockTime ≤ toTimePoint o.expiration

theorem inv_nil (pendingBlockTime : ℕ) : (⟨pendingBlockTime, []⟩ : DedupState Id).Inv [] :=
  ⟨List.nodup_nil, by simp⟩

/-- `validate_expiration` accepts only transactions that have not expired. -/
theorem le_of_validateExpiration {maxTransactionLifetime expiration : UInt32}
    (h : s.validateExpiration maxTransactionLifetime expiration = true) :
    s.pendingBlockTime ≤ toTimePoint expiration := by
  simp only [validateExpiration, Bool.and_eq_true, decide_eq_true_eq] at h
  exact h.1

variable [DecidableEq Id]

@[simp] theorem clearExpiredInputTransactions_pendingBlockTime :
    s.clearExpiredInputTransactions.pendingBlockTime = s.pendingBlockTime := rfl

theorem recordTransaction_eq_some_iff {id : Id} {expire : UInt32} {s' : DedupState Id} :
    s.recordTransaction id expire = some s' ↔
      id ∉ s.transactions.map (·.trxId) ∧
        s' = { s with transactions := s.transactions ++ [⟨id, expire⟩] } := by
  have hany : s.transactions.any (·.trxId = id) = decide (id ∈ s.transactions.map (·.trxId)) := by
    simp [List.any_eq]
  unfold recordTransaction
  rw [hany]
  by_cases hdup : id ∈ s.transactions.map (·.trxId)
  · simp [hdup]
  · simp [hdup, eq_comm]

/-- **`clear_expired_input_transactions` keeps exactly the objects that have not expired.** The
loop removes an object when the block time is after its expiration, and `by_expiration` hands
the objects out in the order of their expirations. -/
theorem clearExpiredInputTransactions_transactions :
    s.clearExpiredInputTransactions.transactions =
      s.transactions.filter fun o => s.pendingBlockTime ≤ toTimePoint o.expiration := by
  rw [clearExpiredInputTransactions, OrderedIndex.removeWhile_eq_filter _ _ ?_ le_rfl]
  · refine List.filter_congr fun o _ => ?_
    by_cases h : s.pendingBlockTime ≤ toTimePoint o.expiration
    · simp [h, Nat.not_lt.mpr h]
    · simp [h, Nat.lt_of_not_le h]
  · -- an object expiring no later than an expired one has expired
    intro a b hab hb
    simp only [decide_eq_true_eq] at hb ⊢
    have hle : toTimePoint a.expiration ≤ toTimePoint b.expiration := Nat.mul_le_mul_right _ hab
    omega

/-- With the checks made and the transaction recorded, `init_for_input_trx_common` passes exactly
when `validate_expiration` does and the id is new. -/
theorem initForInputTrxCommon_eq_some_iff {maxTransactionLifetime : UInt32}
    {trx : TransactionObject Id} {s' : DedupState Id} :
    s.initForInputTrxCommon maxTransactionLifetime false false trx = some s' ↔
      s.validateExpiration maxTransactionLifetime trx.expiration = true ∧
        trx.trxId ∉ s.transactions.map (·.trxId) ∧
        s' = { s with transactions := s.transactions ++ [trx] } := by
  unfold initForInputTrxCommon
  by_cases hv : s.validateExpiration maxTransactionLifetime trx.expiration = true
  · simp only [hv, Bool.not_false, Bool.not_true, Bool.and_false, Bool.false_eq_true, if_false,
      true_and]
    exact s.recordTransaction_eq_some_iff
  · simp [hv]

/-- **What a push does**, with the checks made and no replay window: nothing, or the transaction
has not expired, its id is new, it runs through, and its object is recorded. -/
theorem pushTransaction_cases {cfg : DedupConfig} (hchecks : cfg.skipTrxChecks = false)
    (hreplay : cfg.replayHeadTime = none) (trx : TransactionObject Id) (executes : Bool) :
    s.pushTransaction cfg trx executes = (s, false) ∨
      (executes = true ∧ s.validateExpiration cfg.maxTransactionLifetime trx.expiration = true ∧
        trx.trxId ∉ s.transactions.map (·.trxId) ∧
        s.pushTransaction cfg trx executes = ({ s with transactions := s.transactions ++ [trx] }, true)) := by
  simp only [pushTransaction, hreplay, hchecks]
  cases hinit : s.initForInputTrxCommon cfg.maxTransactionLifetime false false trx with
  | none => exact .inl rfl
  | some s' =>
    obtain ⟨hv, hid, rfl⟩ := s.initForInputTrxCommon_eq_some_iff.mp hinit
    cases executes
    · exact .inl rfl
    · exact .inr ⟨rfl, hv, hid, rfl⟩

variable {s}

/-- **A block keeps the invariant**: it is later than the pending time before it, so the objects
that `clear_expired_input_transactions` removes are exactly those that expired by then. -/
theorem Inv.startBlock {hist : List (TransactionObject Id)} (hinv : s.Inv hist) {when : ℕ}
    {s' : DedupState Id} (h : s.startBlock when = some s') : s'.Inv hist := by
  unfold DedupState.startBlock at h
  split_ifs at h with hwhen
  obtain rfl := Option.some.inj h
  refine ⟨hinv.hist_nodup, fun o => ?_⟩
  rw [clearExpiredInputTransactions_transactions]
  simp only [clearExpiredInputTransactions_pendingBlockTime, List.mem_filter, decide_eq_true_eq,
    hinv.mem_iff]
  constructor
  · rintro ⟨⟨ho, -⟩, hot⟩
    exact ⟨ho, hot⟩
  · rintro ⟨ho, hot⟩
    exact ⟨⟨ho, by omega⟩, hot⟩

/-- **A push keeps the invariant**, the transaction joining the executed ones when it gets a
receipt. Its id is new: an earlier transaction with the id would be this one, and so still in
the index, which makes `record_transaction` throw. -/
theorem Inv.pushTransaction {cfg : DedupConfig} (hchecks : cfg.skipTrxChecks = false)
    (hreplay : cfg.replayHeadTime = none) {hist : List (TransactionObject Id)} (hinv : s.Inv hist)
    {trx : TransactionObject Id} (hids : ∀ o ∈ hist, o.trxId = trx.trxId → o = trx)
    (executes : Bool) :
    (s.pushTransaction cfg trx executes).1.Inv
      (if (s.pushTransaction cfg trx executes).2 then hist ++ [trx] else hist) := by
  rcases s.pushTransaction_cases hchecks hreplay trx executes with h | ⟨-, hv, hid, h⟩
  · rw [h]
    exact hinv
  rw [h]
  have hle := s.le_of_validateExpiration hv
  have hnew : trx.trxId ∉ hist.map (·.trxId) := by
    intro hmem
    obtain ⟨o, ho, hoid⟩ := List.mem_map.mp hmem
    obtain rfl := hids o ho hoid
    exact hid (List.mem_map_of_mem ((hinv.mem_iff o).mpr ⟨ho, hle⟩))
  refine ⟨?_, fun o => ?_⟩
  · simp only [↓reduceIte, List.map_append, List.map_singleton]
    exact hinv.hist_nodup.append (List.nodup_singleton _) (List.disjoint_singleton.mpr hnew)
  · simp only [↓reduceIte, List.mem_append, List.mem_singleton, hinv.mem_iff]
    constructor
    · rintro (⟨ho, hot⟩ | rfl)
      · exact ⟨.inl ho, hot⟩
      · exact ⟨.inr rfl, hle⟩
    · rintro ⟨ho | rfl, hot⟩
      · exact .inl ⟨ho, hot⟩
      · exact .inr rfl

/-- **An executed transaction pushed again** throws: `tx_duplicate` while it is in the index,
expired once it has left it. -/
theorem Inv.pushTransaction_of_mem {cfg : DedupConfig} (hchecks : cfg.skipTrxChecks = false)
    (hreplay : cfg.replayHeadTime = none) {hist : List (TransactionObject Id)} (hinv : s.Inv hist)
    {o : TransactionObject Id} (ho : o ∈ hist) (executes : Bool) :
    s.pushTransaction cfg o executes = (s, false) := by
  rcases s.pushTransaction_cases hchecks hreplay o executes with h | ⟨-, hv, hid, -⟩
  · exact h
  · exact absurd (List.mem_map_of_mem ((hinv.mem_iff o).mpr ⟨ho, s.le_of_validateExpiration hv⟩)) hid

end DedupState

namespace DedupEvent

theorem mem_pushed {events : List (DedupEvent Id)} {trx : TransactionObject Id} {executes : Bool}
    (h : pushTransaction trx executes ∈ events) : trx ∈ pushed events := by
  induction events with
  | nil => cases h
  | cons e events ih =>
    rcases List.mem_cons.mp h with rfl | hmem
    · exact List.mem_cons_self
    · cases e with
      | startBlock => exact ih hmem
      | pushTransaction => exact List.mem_cons_of_mem _ (ih hmem)

variable [DecidableEq Id]

/-- **One event keeps the invariant**, for the executed transactions before the run and the
receipts of the run so far, all of them pushed by the run. -/
theorem step_inv {cfg : DedupConfig} (hchecks : cfg.skipTrxChecks = false)
    (hreplay : cfg.replayHeadTime = none) {hist : List (TransactionObject Id)}
    {events : List (DedupEvent Id)} (hids : IdsDetermine (hist ++ pushed events))
    {sr sr' : DedupState Id × List (TransactionObject Id)}
    (hinv : sr.1.Inv (hist ++ sr.2)) (hrec : ∀ o ∈ sr.2, o ∈ pushed events)
    {e : DedupEvent Id} (he : e ∈ events) (h : step cfg sr e = some sr') :
    sr'.1.Inv (hist ++ sr'.2) ∧ ∀ o ∈ sr'.2, o ∈ pushed events := by
  cases e with
  | startBlock when =>
    obtain ⟨s₁, hs₁, rfl⟩ := Option.map_eq_some_iff.mp h
    exact ⟨hinv.startBlock hs₁, hrec⟩
  | pushTransaction trx executes =>
    obtain rfl := Option.some.inj h
    have htrx := mem_pushed he
    -- an executed transaction with the id of this one is this one
    have hsame : ∀ o ∈ hist ++ sr.2, o.trxId = trx.trxId → o = trx := fun o ho =>
      hids o (List.mem_append.mpr ((List.mem_append.mp ho).imp id (hrec o)))
        trx (List.mem_append_right _ htrx)
    have hstep := hinv.pushTransaction hchecks hreplay hsame executes
    cases hpush : (sr.1.pushTransaction cfg trx executes).2
    · rw [hpush] at hstep
      exact ⟨by simpa [hpush] using hstep, by simpa [hpush] using hrec⟩
    · rw [hpush] at hstep
      refine ⟨by simpa [hpush, List.append_assoc] using hstep, fun o ho => ?_⟩
      simp only [↓reduceIte, List.mem_append, List.mem_singleton] at ho
      rcases ho with ho | rfl
      · exact hrec o ho
      · exact htrx

end DedupEvent

/-- **Replay protection.** Along every branch from a state that satisfies the invariant for the
transactions executed before it, with the checks of transactions made, no replay window, and
one transaction per id: no id gets two executed receipts; the index holds exactly the executed
transactions that have not expired at the time of the pending block (at the start of a block,
those whose expiration is not before it); and pushing an executed transaction again throws,
leaves the state as it is, and gets no receipt. -/
theorem run_noDuplicateReceipts [DecidableEq Id] (cfg : DedupConfig)
    (hchecks : cfg.skipTrxChecks = false) (hreplay : cfg.replayHeadTime = none)
    {s s' : DedupState Id} {hist receipts : List (TransactionObject Id)}
    {events : List (DedupEvent Id)} (hinv : s.Inv hist)
    (hids : IdsDetermine (hist ++ DedupEvent.pushed events))
    (h : DedupEvent.run cfg s events = some (s', receipts)) :
    ((hist ++ receipts).map (·.trxId)).Nodup ∧
      (∀ o, o ∈ s'.transactions ↔ o ∈ hist ++ receipts ∧ s'.pendingBlockTime ≤ toTimePoint o.expiration) ∧
      ∀ o ∈ hist ++ receipts, ∀ executes, s'.pushTransaction cfg o executes = (s', false) := by
  obtain ⟨hinv', -⟩ := PartialRun.foldlM_invariant
    (fun sr : DedupState Id × List (TransactionObject Id) =>
      sr.1.Inv (hist ++ sr.2) ∧ ∀ o ∈ sr.2, o ∈ DedupEvent.pushed events)
    (fun _ hsr _ he _ hstep => DedupEvent.step_inv hchecks hreplay hids hsr.1 hsr.2 he hstep)
    ⟨by simpa using hinv, by simp⟩ h
  exact ⟨hinv'.hist_nodup, hinv'.mem_iff,
    fun o ho executes => hinv'.pushTransaction_of_mem hchecks hreplay ho executes⟩

/-- A branch of three blocks: transaction 7 is executed once; pushed again in its block and in
the next one it is a duplicate, and after it has expired it fails `validate_expiration`. -/
theorem run_noDuplicateReceipts_threeBlocks :
    (([⟨7, 10⟩, ⟨8, 20⟩] : List (TransactionObject ℕ)).map (·.trxId)).Nodup ∧
      (∀ o : TransactionObject ℕ, o ∈ [⟨8, 20⟩] ↔
        o ∈ [⟨7, 10⟩, ⟨8, 20⟩] ∧ 11000000 ≤ toTimePoint o.expiration) ∧
      ∀ o ∈ ([⟨7, 10⟩, ⟨8, 20⟩] : List (TransactionObject ℕ)), ∀ executes,
        (⟨11000000, [⟨8, 20⟩]⟩ : DedupState ℕ).pushTransaction ⟨3600, false, none⟩ o executes =
          (⟨11000000, [⟨8, 20⟩]⟩, false) := by
  have hrun : DedupEvent.run ⟨3600, false, none⟩ (⟨0, []⟩ : DedupState ℕ)
      [.startBlock 1000000, .pushTransaction ⟨7, 10⟩ true, .pushTransaction ⟨7, 10⟩ true,
        .startBlock 2000000, .pushTransaction ⟨7, 10⟩ true, .pushTransaction ⟨8, 20⟩ true,
        .startBlock 11000000, .pushTransaction ⟨7, 10⟩ true] =
      some (⟨11000000, [⟨8, 20⟩]⟩, [⟨7, 10⟩, ⟨8, 20⟩]) := by decide
  exact run_noDuplicateReceipts ⟨3600, false, none⟩ rfl rfl (DedupState.inv_nil 0) (by decide) hrun

end Eosio.Chain
