import Mathlib
import TaurusNode.Lib.PartialRun

/-!
# The FIFO transaction processing queue

A model of `fifo_trx_processing_queue` and its `detail::blocking_queue`
(plugins/amqp_trx_plugin/include/eosio/amqp_trx_plugin/fifo_trx_processing_queue.hpp). Pushing
threads enqueue transactions whose signature recovery has started. The queue thread takes the first
with `pop_and_pause`, which waits until the queue is unpaused, then up to ten more with `pop`, which
does not wait, and posts each to the app thread. There, in the order posted, a task waits for the
recovered keys, calls `execute_incoming_transaction` (or, when the recovery threw, the
transaction's `next` with the exception) and unpauses the queue. `on_block_start` and
`on_block_stop`, also on the app thread, unpause and pause it on the `current_block_` transitions
between `0` and a block number.

* `Conserved`: the transactions taken from the queue, in the order the tasks ran, then the posted
  ones, then the queued ones, come in the order they were enqueued, and every enqueued one is in
  one of these or was discarded. So `execute_incoming_transaction` is called in the order of the
  pushes and at most once for each (`Conserved.executed_sublist`).
* `Counted`: `paused_` is the number of transactions taken and not finished, plus one when no
  block is active, and no `unpause` has thrown.
* Each event keeps both (`step_inv`), so every run from `run()` does (`inv_run`), when no block
  number given to `on_block_start` or `on_block_stop` is `0`; what that says of the calls of
  `execute_incoming_transaction` and of `paused_` is `executes_in_push_order`.
* A transaction whose recovery throws is neither executed, queued nor discarded, and block number
  `0` unpauses with no block begun, until `unpause` throws (`recoveryFails_blockZero`).

Modelled as: each event is one step of one thread, the queue thread's `pop` and `process` being
one; a pushed transaction is tagged with its place among the enqueued ones; whether its recovery
throws is a property of the transaction. The producer's `is_producing_block()` and `paused()` are
the arguments of the block events. `app().post`, `app().quit` and the logs are not modelled.
-/

namespace Eosio.AmqpTrx

/-- A queued transaction: its place among the enqueued ones, and the transaction. -/
abbrev QItem (T : Type) := ℕ × T

/-- The fields of `fifo_trx_processing_queue` and its `blocking_queue`, with what the app thread
has done with the transactions. -/
structure FifoQueue (T : Type) where
  maxDepth : ℕ
  allowSpeculativeExecution : Bool
  queue : List (QItem T)
  /-- `queue_.paused_`; `0` is unpaused -/
  paused : ℤ
  stopped : Bool
  running : Bool
  started : Bool
  currentBlock : ℕ
  /-- the queue thread: `none` in `pop_and_pause`, `some n` draining with `n` pops left -/
  drain : Option ℕ
  /-- the tasks posted to the app thread and not yet run -/
  posted : List (QItem T)
  /-- the transactions of the tasks run, in order -/
  processed : List (QItem T)
  /-- the `execute_incoming_transaction` calls -/
  executed : List (QItem T)
  /-- the transactions `push` enqueued, in order -/
  enqueued : List (QItem T)
  /-- the transactions `stop` or a clearing `for_each` dropped, or `push` refused -/
  discarded : List (QItem T)
  /-- an `unpause` threw its logic error -/
  threw : Bool

/-- The events of an execution. -/
inductive QueueEvent (T : Type)
  /-- `push(trx, ...)` on a pushing thread -/
  | push (trx : T)
  /-- the queue thread's `pop_and_pause` and `process` -/
  | popAndPause
  /-- the queue thread's `pop` and `process`, or the end of its draining -/
  | pop
  /-- the app thread runs the first posted task -/
  | runTask
  /-- `on_block_start(bn)`, with `is_producing_block()` -/
  | blockStart (bn : ℕ) (producing : Bool)
  /-- `on_block_stop(bn)`, with `is_producing_block()` and `paused()` -/
  | blockStop (bn : ℕ) (producing prodPaused : Bool)
  /-- `for_each_delivery_tag(cb, true)` -/
  | clear
  /-- `signal_stop()` -/
  | stop

namespace QueueEvent

variable {T : Type}

/-- The block number an event gives, if any. -/
def blockNum : QueueEvent T → Option ℕ
  | blockStart bn _ | blockStop bn _ _ => some bn
  | _ => none

end QueueEvent

namespace FifoQueue

variable {T : Type} (recovers : T → Bool) (s : FifoQueue T)

/-- The queue after `run()`: nothing queued, paused once. -/
def afterRun (maxDepth : ℕ) (allowSpeculativeExecution : Bool) : FifoQueue T :=
  ⟨maxDepth, allowSpeculativeExecution, [], 1, false, true, false, 0, none, [], [], [], [], [], false⟩

/-- `blocking_queue::unpause()`: the count goes down, and below `-1` it throws. -/
def unpause : FifoQueue T :=
  { s with paused := s.paused - 1, threw := s.threw || decide (s.paused - 1 < -1) }

/-- `push`: refused once the queue is stopped, otherwise enqueued at the back. -/
def push (trx : T) : FifoQueue T :=
  if s.stopped then { s with discarded := s.discarded ++ [(s.enqueued.length, trx)] }
  else
    { s with
      queue := s.queue ++ [(s.enqueued.length, trx)]
      enqueued := s.enqueued ++ [(s.enqueued.length, trx)] }

/-- A transaction taken from the front by `pop` or `pop_and_pause`, which pause the queue once
more, and posted by `process`. -/
def take (item : QItem T) (rest : List (QItem T)) (drain : ℕ) : FifoQueue T :=
  { s with queue := rest, paused := s.paused + 1, posted := s.posted ++ [item], drain := some drain }

/-- The task of `process`: the keys, then `execute_incoming_transaction` or the exception to
`next`, then `unpause`. -/
def runTask (item : QItem T) (rest : List (QItem T)) : FifoQueue T :=
  unpause
    { s with
      posted := rest
      processed := s.processed ++ [item]
      executed := if recovers item.2 then s.executed ++ [item] else s.executed }

/-- `on_block_start(bn)`. -/
def blockStart (bn : ℕ) (producing : Bool) : FifoQueue T :=
  let s := { s with started := true }
  if s.allowSpeculativeExecution || producing then
    { (if s.currentBlock = 0 then unpause s else s) with currentBlock := bn }
  else s

/-- `on_block_stop(bn)`: pauses only the block it is told of, which may already be followed by the
next. -/
def blockStop (bn : ℕ) (producing prodPaused : Bool) : FifoQueue T :=
  if s.started && (s.allowSpeculativeExecution || producing || prodPaused) && s.currentBlock = bn
  then { s with paused := s.paused + 1, currentBlock := 0 }
  else s

/-- The queued transactions dropped, by `stop` or a clearing `for_each`. -/
def dropQueue : FifoQueue T :=
  { s with queue := [], discarded := s.discarded ++ s.queue }

/-- One event, `none` where it cannot happen: a push waits while the queue is full,
`pop_and_pause` while it is empty or paused, and no thread runs once stopped. -/
def step : QueueEvent T → Option (FifoQueue T)
  | .push trx => if s.queue.length < s.maxDepth || s.stopped then some (s.push trx) else none
  | .popAndPause =>
    match s.drain, s.queue with
    | none, item :: rest =>
      if s.running && !s.stopped && decide (s.paused ≤ 0) then some (s.take item rest 10) else none
    | _, _ => none
  | .pop =>
    match s.drain, s.queue with
    | some (n + 1), item :: rest =>
      if s.stopped then some { s with drain := none } else some (s.take item rest n)
    | some _, _ => some { s with drain := none }
    | none, _ => none
  | .runTask =>
    match s.posted with
    | item :: rest => some (s.runTask recovers item rest)
    | [] => none
  | .blockStart bn producing => some (s.blockStart bn producing)
  | .blockStop bn producing prodPaused => some (s.blockStop bn producing prodPaused)
  | .clear => some s.dropQueue
  | .stop => some { s.dropQueue with running := false, stopped := true }

/-- The queue after an execution, `none` if an event of it cannot happen. -/
def run (events : List (QueueEvent T)) : Option (FifoQueue T) := events.foldlM (step recovers) s

/-! ### What each event does -/

/-- What an event can do: a push; a take from the front, which `pop_and_pause` makes only
unpaused; the end of the draining; a task; a block call; a drop of the queue. -/
theorem step_eq_some {e : QueueEvent T} {s' : FifoQueue T} (h : s.step recovers e = some s') :
    (∃ trx, e = .push trx ∧ s' = s.push trx) ∨
    (∃ item rest n, s.queue = item :: rest ∧ s' = s.take item rest n ∧
      (e = .popAndPause → s.paused ≤ 0) ∧ (e = .popAndPause ∨ e = .pop)) ∨
    (e = .pop ∧ s' = { s with drain := none }) ∨
    (∃ item rest, e = .runTask ∧ s.posted = item :: rest ∧ s' = s.runTask recovers item rest) ∨
    (∃ bn producing, e = .blockStart bn producing ∧ s' = s.blockStart bn producing) ∨
    (∃ bn producing prodPaused, e = .blockStop bn producing prodPaused ∧
      s' = s.blockStop bn producing prodPaused) ∨
    (e = .clear ∧ s' = s.dropQueue) ∨
    (e = .stop ∧ s' = { s.dropQueue with running := false, stopped := true }) := by
  cases e with
  | push trx =>
    simp only [step] at h
    split at h
    · exact .inl ⟨trx, rfl, (Option.some.inj h).symm⟩
    · cases h
  | popAndPause =>
    simp only [step] at h
    split at h
    · next item rest _ hq =>
      split at h
      · next hc =>
        simp only [Bool.and_eq_true, Bool.not_eq_true', decide_eq_true_eq] at hc
        exact .inr (.inl ⟨item, rest, 10, hq, (Option.some.inj h).symm, fun _ => hc.2,
          .inl rfl⟩)
      · cases h
    · cases h
  | pop =>
    simp only [step] at h
    split at h
    · next n item rest _ hq =>
      split at h
      · exact .inr (.inr (.inl ⟨rfl, (Option.some.inj h).symm⟩))
      · exact .inr (.inl ⟨item, rest, n, hq, (Option.some.inj h).symm, nofun, .inr rfl⟩)
    · exact .inr (.inr (.inl ⟨rfl, (Option.some.inj h).symm⟩))
    · cases h
  | runTask =>
    simp only [step] at h
    split at h
    · next item rest hp =>
      exact .inr (.inr (.inr (.inl ⟨item, rest, rfl, hp, (Option.some.inj h).symm⟩)))
    · cases h
  | blockStart bn producing =>
    exact .inr (.inr (.inr (.inr (.inl ⟨bn, producing, rfl, (Option.some.inj h).symm⟩))))
  | blockStop bn producing prodPaused =>
    exact .inr (.inr (.inr (.inr (.inr (.inl
      ⟨bn, producing, prodPaused, rfl, (Option.some.inj h).symm⟩)))))
  | clear => exact .inr (.inr (.inr (.inr (.inr (.inr (.inl ⟨rfl, (Option.some.inj h).symm⟩))))))
  | stop => exact .inr (.inr (.inr (.inr (.inr (.inr (.inr ⟨rfl, (Option.some.inj h).symm⟩))))))

/-- Where the transactions are. -/
def lists : List (QItem T) × List (QItem T) × List (QItem T) × List (QItem T) × List (QItem T) ×
    List (QItem T) :=
  (s.queue, s.posted, s.processed, s.executed, s.enqueued, s.discarded)

@[simp] theorem lists_unpause : s.unpause.lists = s.lists := rfl

@[simp] theorem lists_blockStart (bn : ℕ) (producing : Bool) :
    (s.blockStart bn producing).lists = s.lists := by
  dsimp only [blockStart]
  split
  · split <;> rfl
  · rfl

@[simp] theorem lists_blockStop (bn : ℕ) (producing prodPaused : Bool) :
    (s.blockStop bn producing prodPaused).lists = s.lists := by
  unfold blockStop
  split <;> rfl

/-! ### Conservation -/

/-- **Conservation.** The transactions of the tasks run, then the posted ones, then the queued
ones, in the order they were enqueued; every enqueued one among them or discarded; each tagged
with its place; and `execute_incoming_transaction` called for exactly those of the tasks run whose
recovery did not throw. -/
structure Conserved : Prop where
  ordered : (s.processed ++ s.posted ++ s.queue).Sublist s.enqueued
  kept : ∀ item ∈ s.enqueued, item ∈ s.processed ++ s.posted ++ s.queue ∨ item ∈ s.discarded
  tagged : s.enqueued.map Prod.fst = List.range s.enqueued.length
  executed : s.executed = s.processed.filter fun item => recovers item.2

variable {recovers s}

theorem Conserved.of_lists {s' : FifoQueue T} (h : s.Conserved recovers) (hl : s'.lists = s.lists) :
    s'.Conserved recovers := by
  simp only [lists, Prod.mk.injEq] at hl
  obtain ⟨hq, hp, hpr, he, hen, hd⟩ := hl
  obtain ⟨hord, hkept, htag, hexec⟩ := h
  refine ⟨?_, ?_, ?_, ?_⟩ <;> simp only [hq, hp, hpr, he, hen, hd] <;> assumption

theorem Conserved.push (h : s.Conserved recovers) (trx : T) : (s.push trx).Conserved recovers := by
  unfold FifoQueue.push
  split
  · -- refused: only `discarded` grows
    obtain ⟨hord, hkept, htag, hexec⟩ := h
    exact ⟨hord, fun item hi => (hkept item hi).imp id (List.mem_append_left _), htag, hexec⟩
  · obtain ⟨hord, hkept, htag, hexec⟩ := h
    refine ⟨?_, ?_, ?_, hexec⟩
    · simpa only [← List.append_assoc] using hord.append (List.Sublist.refl _)
    · intro item hi
      rcases List.mem_append.mp hi with hi | hi
      · rcases hkept item hi with hk | hk
        · exact .inl (by simp only [List.mem_append] at hk ⊢; tauto)
        · exact .inr hk
      · exact .inl (by simp_all)
    · rw [List.map_append, htag, List.length_append, List.length_singleton, List.range_succ]
      rfl

theorem Conserved.take {item : QItem T} {rest : List (QItem T)} (h : s.Conserved recovers)
    (hq : s.queue = item :: rest) (drain : ℕ) : (s.take item rest drain).Conserved recovers := by
  -- the three lists together are unchanged
  have hall : (s.take item rest drain).processed ++ (s.take item rest drain).posted ++
      (s.take item rest drain).queue = s.processed ++ s.posted ++ s.queue := by
    simp [FifoQueue.take, hq]
  obtain ⟨hord, hkept, htag, hexec⟩ := h
  exact ⟨hall ▸ hord, fun item hi => hall ▸ hkept item hi, htag, hexec⟩

theorem Conserved.runTask {item : QItem T} {rest : List (QItem T)} (h : s.Conserved recovers)
    (hp : s.posted = item :: rest) : (s.runTask recovers item rest).Conserved recovers := by
  have hall : (s.runTask recovers item rest).processed ++ (s.runTask recovers item rest).posted ++
      (s.runTask recovers item rest).queue = s.processed ++ s.posted ++ s.queue := by
    simp [FifoQueue.runTask, unpause, hp]
  obtain ⟨hord, hkept, htag, hexec⟩ := h
  refine ⟨hall ▸ hord, fun item hi => hall ▸ hkept item hi, htag, ?_⟩
  -- the task calls `execute_incoming_transaction` exactly when the recovery succeeded
  simp only [FifoQueue.runTask, unpause, hexec, List.filter_append]
  split <;> simp_all

theorem Conserved.dropQueue (h : s.Conserved recovers) : s.dropQueue.Conserved recovers := by
  obtain ⟨hord, hkept, htag, hexec⟩ := h
  refine ⟨?_, ?_, htag, hexec⟩
  · exact (List.sublist_append_left _ _).trans (by simpa [FifoQueue.dropQueue] using hord)
  · intro item hi
    rcases hkept item hi with hk | hk
    · simp only [FifoQueue.dropQueue, List.append_nil, List.mem_append] at hk ⊢
      tauto
    · exact .inr (List.mem_append_left _ hk)

/-- Every event keeps the conservation. -/
theorem Conserved.step {e : QueueEvent T} {s' : FifoQueue T} (h : s.Conserved recovers)
    (hs : s.step recovers e = some s') : s'.Conserved recovers := by
  rcases step_eq_some recovers s hs with
    ⟨trx, -, rfl⟩ | ⟨item, rest, n, hq, rfl, -⟩ | ⟨-, rfl⟩ | ⟨item, rest, -, hp, rfl⟩ |
    ⟨bn, producing, -, rfl⟩ | ⟨bn, producing, prodPaused, -, rfl⟩ | ⟨-, rfl⟩ | ⟨-, rfl⟩
  · exact h.push trx
  · exact h.take hq n
  · exact h.of_lists rfl
  · exact h.runTask hp
  · exact h.of_lists (lists_blockStart s bn producing)
  · exact h.of_lists (lists_blockStop s bn producing prodPaused)
  · exact h.dropQueue
  · exact h.dropQueue.of_lists rfl

/-- So `execute_incoming_transaction` is called in the order of the pushes. -/
theorem Conserved.executed_sublist (h : s.Conserved recovers) : s.executed.Sublist s.enqueued := by
  rw [h.executed]
  have hprocessed : s.processed.Sublist (s.processed ++ s.posted ++ s.queue) :=
    (List.sublist_append_left _ _).trans (List.sublist_append_left _ _)
  exact List.filter_sublist.trans (hprocessed.trans h.ordered)

/-- And at most once for each: the enqueued ones have distinct tags. -/
theorem Conserved.executed_nodup (h : s.Conserved recovers) : s.executed.Nodup := by
  have htags : (s.enqueued.map Prod.fst).Nodup := h.tagged ▸ List.nodup_range
  exact (htags.of_map _).sublist h.executed_sublist

/-! ### The pause count -/

/-- **The pause count.** `paused_` counts the transactions taken and whose task has not run, and
one more while no block is active; no `unpause` has thrown. -/
structure Counted (s : FifoQueue T) : Prop where
  paused : s.paused = s.posted.length + if s.currentBlock = 0 then 1 else 0
  not_threw : s.threw = false

/-- An `unpause` of a queue paused at least once does not throw. -/
theorem threw_unpause (hthrew : s.threw = false) (hpaused : 1 ≤ s.paused) : s.unpause.threw = false := by
  simp only [unpause, hthrew, Bool.false_or, decide_eq_false_iff_not]
  omega

theorem Counted.push (h : s.Counted) (trx : T) : (s.push trx).Counted := by
  unfold FifoQueue.push
  split
  · exact ⟨h.paused, h.not_threw⟩
  · exact ⟨h.paused, h.not_threw⟩

theorem Counted.take {item : QItem T} {rest : List (QItem T)} (h : s.Counted) (drain : ℕ) :
    (s.take item rest drain).Counted := by
  refine ⟨?_, h.not_threw⟩
  simp only [FifoQueue.take, List.length_append, List.length_singleton, h.paused]
  push_cast
  ring

theorem Counted.runTask {item : QItem T} {rest : List (QItem T)} (h : s.Counted)
    (hp : s.posted = item :: rest) : (s.runTask recovers item rest).Counted := by
  obtain ⟨hpaused, hthrew⟩ := h
  rw [hp, List.length_cons] at hpaused
  -- the task finishes one of the transactions taken, so the queue was paused for it
  have hone : 1 ≤ s.paused := by
    rw [hpaused]
    split <;> omega
  refine ⟨?_, threw_unpause hthrew hone⟩
  simp only [FifoQueue.runTask, unpause, hpaused]
  push_cast
  ring

theorem Counted.blockStart (h : s.Counted) {bn : ℕ} (hbn : bn ≠ 0) (producing : Bool) :
    (s.blockStart bn producing).Counted := by
  obtain ⟨hpaused, hthrew⟩ := h
  dsimp only [FifoQueue.blockStart]
  split
  · split
    · next hcb =>
      -- the first block: the pause of no block is taken back
      rw [if_pos hcb] at hpaused
      refine ⟨?_, threw_unpause hthrew (show 1 ≤ s.paused by omega)⟩
      simp only [unpause, hbn, if_false, hpaused]
      ring
    · next hcb =>
      rw [if_neg hcb] at hpaused
      exact ⟨by simpa [hbn] using hpaused, hthrew⟩
  · exact ⟨hpaused, hthrew⟩

theorem Counted.blockStop (h : s.Counted) {bn : ℕ} (hbn : bn ≠ 0) (producing prodPaused : Bool) :
    (s.blockStop bn producing prodPaused).Counted := by
  obtain ⟨hpaused, hthrew⟩ := h
  unfold FifoQueue.blockStop
  split
  · next hc =>
    -- the block told of is the active one, so a block was active and is paused again
    have hcb : s.currentBlock ≠ 0 := by
      simp only [Bool.and_eq_true, decide_eq_true_eq] at hc
      exact hc.2 ▸ hbn
    rw [if_neg hcb] at hpaused
    refine ⟨?_, hthrew⟩
    simp only [if_true, hpaused, add_zero]
  · exact ⟨hpaused, hthrew⟩

theorem Counted.dropQueue (h : s.Counted) : s.dropQueue.Counted := ⟨h.paused, h.not_threw⟩

/-- Every event keeps the count, when no block number is `0`. -/
theorem Counted.step {e : QueueEvent T} {s' : FifoQueue T} (h : s.Counted)
    (he : e.blockNum ≠ some 0) (hs : s.step recovers e = some s') : s'.Counted := by
  rcases step_eq_some recovers s hs with
    ⟨trx, -, rfl⟩ | ⟨item, rest, n, -, rfl, -⟩ | ⟨-, rfl⟩ | ⟨item, rest, -, hp, rfl⟩ |
    ⟨bn, producing, rfl, rfl⟩ | ⟨bn, producing, prodPaused, rfl, rfl⟩ | ⟨-, rfl⟩ | ⟨-, rfl⟩
  · exact h.push trx
  · exact h.take n
  · exact ⟨h.paused, h.not_threw⟩
  · exact h.runTask hp
  · exact h.blockStart (fun hbn => he (congrArg some hbn)) producing
  · exact h.blockStop (fun hbn => he (congrArg some hbn)) producing prodPaused
  · exact h.dropQueue
  · exact ⟨h.paused, h.not_threw⟩

/-! ### Runs -/

variable (recovers) in
/-- Both invariants. -/
def Inv (s : FifoQueue T) : Prop := s.Conserved recovers ∧ s.Counted

theorem step_inv {e : QueueEvent T} {s' : FifoQueue T} (h : s.Inv recovers)
    (he : e.blockNum ≠ some 0) (hs : s.step recovers e = some s') : s'.Inv recovers :=
  ⟨h.1.step hs, h.2.step he hs⟩

theorem inv_afterRun (maxDepth : ℕ) (allow : Bool) : (afterRun maxDepth allow : FifoQueue T).Inv recovers :=
  ⟨⟨List.Sublist.slnil, nofun, rfl, rfl⟩, ⟨rfl, rfl⟩⟩

/-- Every run from `run()` keeps both invariants, when no block number is `0`. -/
theorem inv_run {maxDepth : ℕ} {allow : Bool} {events : List (QueueEvent T)} {s' : FifoQueue T}
    (hevents : ∀ e ∈ events, e.blockNum ≠ some 0)
    (hrun : (afterRun maxDepth allow).run recovers events = some s') : s'.Inv recovers :=
  PartialRun.foldlM_invariant (Inv recovers)
    (fun _ hs e he _ hstep => step_inv hs (hevents e he) hstep) (inv_afterRun maxDepth allow) hrun

/-- The fate of a pushed transaction: `execute_incoming_transaction` ran it, or its task ran and
its recovery threw, or its task is posted, or it is still queued, or it was discarded. -/
theorem Conserved.fate (h : s.Conserved recovers) {item : QItem T} (hi : item ∈ s.enqueued) :
    item ∈ s.executed ∨ (item ∈ s.processed ∧ recovers item.2 = false) ∨ item ∈ s.posted ∨
      item ∈ s.queue ∨ item ∈ s.discarded := by
  rcases h.kept item hi with hk | hk
  · simp only [List.mem_append] at hk
    rcases hk with (hk | hk) | hk
    · -- a task ran: executed exactly when the recovery succeeded
      cases hrec : recovers item.2
      · exact .inr (.inl ⟨hk, rfl⟩)
      · exact .inl (by rw [h.executed]; exact List.mem_filter.mpr ⟨hk, hrec⟩)
    · exact .inr (.inr (.inl hk))
    · exact .inr (.inr (.inr (.inl hk)))
  · exact .inr (.inr (.inr (.inr hk)))

end FifoQueue

open FifoQueue in
/-- For every run from `run()` in which no block number is `0`: `execute_incoming_transaction` is
called in the order of the pushes, at most once for each, only from a task that ran (and so after
the recovery it waits for), and only for a transaction whose recovery succeeded; every pushed
transaction was executed, or its recovery threw, or its task is posted, or it is queued, or it was
discarded; `paused_` is the number of posted tasks plus one when no block is active, and no
`unpause` threw. -/
theorem executes_in_push_order {T : Type} (recovers : T → Bool) (maxDepth : ℕ) (allow : Bool)
    (events : List (QueueEvent T)) (s : FifoQueue T) (hevents : ∀ e ∈ events, e.blockNum ≠ some 0)
    (hrun : (afterRun maxDepth allow).run recovers events = some s) :
    s.executed.Sublist s.enqueued ∧ s.executed.Nodup ∧ s.executed.Sublist s.processed ∧
      (∀ item ∈ s.executed, recovers item.2 = true) ∧
      (∀ item ∈ s.enqueued, item ∈ s.executed ∨ (item ∈ s.processed ∧ recovers item.2 = false) ∨
        item ∈ s.posted ∨ item ∈ s.queue ∨ item ∈ s.discarded) ∧
      s.paused = s.posted.length + (if s.currentBlock = 0 then 1 else 0) ∧ s.threw = false := by
  obtain ⟨hc, hk⟩ := inv_run hevents hrun
  have hexec : s.executed.Sublist s.processed := hc.executed ▸ List.filter_sublist
  refine ⟨hc.executed_sublist, hc.executed_nodup, hexec, ?_, fun _ hi => hc.fate hi, hk.paused,
    hk.not_threw⟩
  intro item hi
  rw [hc.executed] at hi
  exact (List.mem_filter.mp hi).2

/-- Two pushes in a block, both taken, the second failing its recovery. -/
def demoEvents : List (QueueEvent ℕ) :=
  [.push 1, .push 2, .blockStart 5 true, .popAndPause, .pop, .runTask, .runTask,
    .blockStop 5 true false]

theorem executes_in_push_order_demoEvents :
    ∃ s, (FifoQueue.afterRun 4 false).run (fun n => n != 2) demoEvents = some s ∧
      s.executed.Sublist s.enqueued ∧ s.executed.Nodup ∧ s.executed.Sublist s.processed ∧
      (∀ item ∈ s.executed, (item.2 != 2) = true) ∧
      (∀ item ∈ s.enqueued, item ∈ s.executed ∨ (item ∈ s.processed ∧ (item.2 != 2) = false) ∨
        item ∈ s.posted ∨ item ∈ s.queue ∨ item ∈ s.discarded) ∧
      s.paused = s.posted.length + (if s.currentBlock = 0 then 1 else 0) ∧ s.threw = false :=
  ⟨_, rfl, executes_in_push_order (fun n => n != 2) 4 false demoEvents _ (by decide) rfl⟩

/-- Where the statement fails without its assumptions. A transaction whose recovery throws is taken
and its task runs, but it is neither executed, queued, posted nor discarded. And block number `0`
leaves `current_block_` at `0`, so each `on_block_start(0)` unpauses again, until `unpause`
throws. -/
theorem recoveryFails_blockZero :
    (∃ s, (FifoQueue.afterRun 1 false).run (fun _ : Unit => false)
        [.push (), .blockStart 1 true, .popAndPause, .runTask] = some s ∧
      (0, ()) ∈ s.enqueued ∧ (0, ()) ∉ s.executed ∧ (0, ()) ∉ s.queue ∧ (0, ()) ∉ s.posted ∧
      (0, ()) ∉ s.discarded) ∧
    (∃ s, (FifoQueue.afterRun 1 false).run (fun _ : Unit => true)
        [.blockStart 0 true, .blockStart 0 true, .blockStart 0 true] = some s ∧ s.threw = true) :=
  ⟨⟨_, rfl, by decide⟩, ⟨_, rfl, rfl⟩⟩

end Eosio.AmqpTrx
