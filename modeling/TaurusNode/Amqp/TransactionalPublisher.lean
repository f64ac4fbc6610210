import Mathlib
import TaurusNode.Amqp.ReliablePublisher

/-!
# The transactional AMQP publisher

A model of `transactional_amqp_publisher_impl` (libraries/amqp/transactional_amqp_publisher.cpp).
`publish_messages_raw` hands a queue of messages to the publisher's thread and blocks until the
transaction that publishes them is committed: the calling thread clears the `acked_cond`, posts
the queue to the publisher's strand and waits on the condition, with a time out. The posted work
takes the queue into `message_deque`, or reports that the last queue was not drained, and pumps
it; `pump_queue` publishes the whole queue in one transaction, whose `onSuccess` clears the queue
and sets the condition. A signal sets `stopping` and the condition.

The caller's three steps and the events of the publisher's thread interleave freely
(`TrxPublisherEvent`), and a wait may time out at any point. A call reports a fatal error when its
wait timed out or the publisher is stopping; the posted work reports one when the queue was not
drained.

* `run_committed`: along every run in which no fatal error is reported and no commit's answer is
  lost, the server has committed the messages of every call that returned, once each and in the
  order of the calls, and besides them at most the messages of the call in progress.

The invariant (`CallStage`) follows the messages of the call in progress from the caller to the
strand, the queue and the server.

The deduplication header (the first word of the SHA-256 of the data), the envelope,
`publish_message_direct`, the check that the caller is not the publisher's thread and the
destructor are left out.
-/

namespace Eosio

/-- The fields of `transactional_amqp_publisher_impl` that its operations read, with the flag of
its `acked_cond`. -/
structure TransactionalAmqpPublisherImpl (M : Type) where
  /-- `channel != nullptr`. -/
  channel : Bool
  stopping : Bool
  inFlight : Bool
  /-- Routing keys and data. -/
  messageDeque : List (String × M)
  /-- `ack_cond.acked_`. -/
  acked : Bool
deriving DecidableEq, Repr

variable {M : Type}

namespace TransactionalAmqpPublisherImpl

/-- `pump_queue`: the publisher after it, and the messages it publishes in a transaction. -/
def pumpQueue (p : TransactionalAmqpPublisherImpl M) :
    TransactionalAmqpPublisherImpl M × List (String × M) :=
  if p.stopping || p.inFlight || !p.channel || p.messageDeque.isEmpty then (p, [])
  else ({ p with inFlight := true }, p.messageDeque)

/-- The commit's `onSuccess`, and its `onFinalize` up to the pump it posts. -/
def commitSucceeded (p : TransactionalAmqpPublisherImpl M) : TransactionalAmqpPublisherImpl M :=
  { p with messageDeque := [], acked := true, inFlight := false }

/-- The commit's `onFinalize` alone, up to the pump it posts. -/
def commitFinalized (p : TransactionalAmqpPublisherImpl M) : TransactionalAmqpPublisherImpl M :=
  { p with inFlight := false }

/-- The work `publish_messages_raw` posts to the strand: the publisher after it, the messages it
publishes, and the error it reports when the last queue was not drained. -/
def takeQueue (queue : List (String × M)) (p : TransactionalAmqpPublisherImpl M) :
    TransactionalAmqpPublisherImpl M × List (String × M) × Option String :=
  if !p.messageDeque.isEmpty then (p, [], some "message_deque not drained")
  else
    let r := pumpQueue { p with messageDeque := queue }
    (r.1, r.2, none)

/-- The handler `wait_for_signal` installs. -/
def signaled (p : TransactionalAmqpPublisherImpl M) : TransactionalAmqpPublisherImpl M :=
  { p with stopping := true, acked := true }

/-- The check after the caller's wait: an error unless the condition was set and the publisher
is not stopping. -/
def waitError (p : TransactionalAmqpPublisherImpl M) : Option String :=
  if !p.acked || p.stopping then some "time out waiting on AMQP commit transaction success ack"
  else none

end TransactionalAmqpPublisherImpl

/-- Where the thread calling `publish_messages_raw` is. -/
inductive CallerState (M : Type)
  | idle
  /-- After `ack_cond.un_set()`. -/
  | unset (queue : List (String × M))
  /-- After the post, in `ack_cond.wait()`. -/
  | waiting (queue : List (String × M))
deriving DecidableEq, Repr

/-- What the caller sees of a step: a call that returned, or the error `on_fatal_error` is called
with. -/
inductive CallResult (M : Type)
  | returned (queue : List (String × M))
  | fatalError (err : String)
deriving DecidableEq, Repr

namespace CallResult

/-- The queue of a call that returned. -/
def returned? : CallResult M → Option (List (String × M))
  | returned queue => some queue
  | fatalError _ => none

def isFatal : CallResult M → Bool
  | returned _ => false
  | fatalError _ => true

end CallResult

/-- What can happen: the caller's steps, the work of the strand, the events of the channel, the
end of a commit, a posted pump and a signal. -/
inductive TrxPublisherEvent (M : Type)
  /-- The caller enters `publish_messages_raw` and clears the condition. -/
  | publishMessagesRaw (queue : List (String × M))
  /-- The caller posts the queue to the strand. -/
  | post
  /-- The caller's wait returns: the condition was set, or the wait timed out. -/
  | waitReturns
  /-- The strand runs the first work posted to it. -/
  | runPosted
  | channelReady
  | channelFailed
  | commitDone (outcome : CommitOutcome)
  /-- The pump that `onFinalize` posted runs. -/
  | pumpQueue
  /-- `SIGINT`, `SIGTERM` or `SIGPIPE`. -/
  | signal
deriving DecidableEq, Repr

/-- The caller, the strand, the publisher and the server. -/
structure TransactionalPublisherSystem (M : Type) where
  caller : CallerState M
  /-- The queues of the work posted to the strand and not yet run. -/
  posted : List (List (String × M))
  publisher : TransactionalAmqpPublisherImpl M
  broker : AmqpBroker (String × M)

namespace TransactionalPublisherSystem

open TransactionalAmqpPublisherImpl

/-- A new publisher, no call in progress, and a server that has committed nothing. -/
def init : TransactionalPublisherSystem M :=
  ⟨.idle, [], ⟨false, false, false, [], false⟩, ⟨[], []⟩⟩

/-- A call of the publisher that may pump: the server receives what it publishes. -/
def deliver (s : TransactionalPublisherSystem M)
    (r : TransactionalAmqpPublisherImpl M × List (String × M)) : TransactionalPublisherSystem M :=
  { s with publisher := r.1, broker := s.broker.publish r.2 }

/-- One event, and what the caller sees of it. -/
def step (s : TransactionalPublisherSystem M) :
    TrxPublisherEvent M → TransactionalPublisherSystem M × Option (CallResult M)
  | .publishMessagesRaw queue =>
    match s.caller with
    | .idle =>
      if queue.isEmpty then (s, some (.returned []))
      else ({ s with caller := .unset queue, publisher := { s.publisher with acked := false } },
        none)
    | _ => (s, none)
  | .post =>
    match s.caller with
    | .unset queue => ({ s with caller := .waiting queue, posted := s.posted ++ [queue] }, none)
    | _ => (s, none)
  | .waitReturns =>
    match s.caller with
    | .waiting queue =>
      ({ s with caller := .idle },
        some (match s.publisher.waitError with
          | some err => .fatalError err
          | none => .returned queue))
    | _ => (s, none)
  | .runPosted =>
    match s.posted with
    | [] => (s, none)
    | queue :: rest =>
      let r := s.publisher.takeQueue queue
      ({ s with posted := rest, publisher := r.1, broker := s.broker.publish r.2.1 },
        r.2.2.map .fatalError)
  | .channelReady => (s.deliver { s.publisher with channel := true }.pumpQueue, none)
  | .channelFailed => ({ s with publisher := { s.publisher with channel := false } }, none)
  | .commitDone outcome =>
    -- only a commit that was sent ends
    if !s.publisher.inFlight then (s, none)
    else
      match outcome with
      | .success =>
        ({ s with publisher := s.publisher.commitSucceeded, broker := s.broker.commit }, none)
      | .error true =>
        ({ s with publisher := s.publisher.commitFinalized, broker := s.broker.commit }, none)
      | .error false =>
        ({ s with publisher := s.publisher.commitFinalized, broker := s.broker.rollback }, none)
  | .pumpQueue => (s.deliver s.publisher.pumpQueue, none)
  | .signal => ({ s with publisher := s.publisher.signaled }, none)

/-- The system after a run of events, and what the caller saw, in order. -/
def run : TransactionalPublisherSystem M → List (TrxPublisherEvent M) →
    TransactionalPublisherSystem M × List (CallResult M)
  | s, [] => (s, [])
  | s, x :: xs =>
    let r := run (s.step x).1 xs
    (r.1, (s.step x).2.toList ++ r.2)

theorem pumpQueue_cases (p : TransactionalAmqpPublisherImpl M) :
    p.pumpQueue = (p, []) ∨
      p.inFlight = false ∧ p.messageDeque ≠ [] ∧
        p.pumpQueue = ({ p with inFlight := true }, p.messageDeque) := by
  unfold TransactionalAmqpPublisherImpl.pumpQueue
  split
  · exact .inl rfl
  · rename_i hready
    simp only [Bool.or_eq_true, Bool.not_eq_eq_eq_not, Bool.not_true, List.isEmpty_iff,
      not_or] at hready
    exact .inr ⟨by simpa using hready.1.1.2, hready.2, rfl⟩

@[simp] theorem deliver_caller (s : TransactionalPublisherSystem M)
    (r : TransactionalAmqpPublisherImpl M × List (String × M)) : (s.deliver r).caller = s.caller :=
  rfl

@[simp] theorem deliver_posted (s : TransactionalPublisherSystem M)
    (r : TransactionalAmqpPublisherImpl M × List (String × M)) : (s.deliver r).posted = s.posted :=
  rfl

@[simp] theorem deliver_committed (s : TransactionalPublisherSystem M)
    (r : TransactionalAmqpPublisherImpl M × List (String × M)) :
    (s.deliver r).broker.committed = s.broker.committed := rfl

/-! ### The server's open transaction -/

/-- The server's open transaction is the queue while a transaction is in flight, and a
transaction is in flight only for a queue that is not empty. -/
structure OpenTransaction (s : TransactionalPublisherSystem M) : Prop where
  uncommitted_eq :
    s.broker.uncommitted = if s.publisher.inFlight then s.publisher.messageDeque else []
  deque_of_inFlight : s.publisher.inFlight = true → s.publisher.messageDeque ≠ []

theorem OpenTransaction.init : OpenTransaction (init : TransactionalPublisherSystem M) :=
  ⟨rfl, fun h => by cases h⟩

/-- A pump of the queue, with nothing in flight or with the transaction in flight left alone. -/
theorem OpenTransaction.deliver_pumpQueue {s : TransactionalPublisherSystem M}
    (h : OpenTransaction s) {p : TransactionalAmqpPublisherImpl M}
    (hf : p.inFlight = s.publisher.inFlight) (hq : p.messageDeque = s.publisher.messageDeque) :
    OpenTransaction (s.deliver p.pumpQueue) := by
  rcases pumpQueue_cases p with hp | ⟨hpf, hne, hp⟩
  · rw [hp]
    refine ⟨?_, ?_⟩
    · simpa [deliver, AmqpBroker.publish, hf, hq] using h.uncommitted_eq
    · simpa [deliver, hf, hq] using h.deque_of_inFlight
  · -- the transaction opens with the queue
    have hnone : s.broker.uncommitted = [] := by simpa [← hf, hpf] using h.uncommitted_eq
    rw [hp]
    exact ⟨by simp [deliver, AmqpBroker.publish, hnone], fun _ => hne⟩

theorem OpenTransaction.step {s : TransactionalPublisherSystem M} (h : OpenTransaction s)
    (x : TrxPublisherEvent M) : OpenTransaction (s.step x).1 := by
  cases x with
  | runPosted =>
    simp only [TransactionalPublisherSystem.step]
    split
    · exact h
    · simp only [takeQueue]
      split
      · exact ⟨by simpa [AmqpBroker.publish] using h.uncommitted_eq, h.deque_of_inFlight⟩
      · -- the queue was drained, so nothing is in flight
        rename_i hempty
        have hf : s.publisher.inFlight = false := by
          by_contra hf
          simp only [Bool.not_eq_false] at hf
          exact h.deque_of_inFlight hf (by simpa using hempty)
        have hnone : s.broker.uncommitted = [] := by simpa [hf] using h.uncommitted_eq
        rename_i queue rest _
        have hopen : OpenTransaction
            { s with posted := rest, publisher := { s.publisher with messageDeque := queue } } :=
          ⟨by simp [hf, hnone], by simp [hf]⟩
        exact hopen.deliver_pumpQueue rfl rfl
  | channelReady => exact h.deliver_pumpQueue rfl rfl
  | pumpQueue => exact h.deliver_pumpQueue rfl rfl
  | commitDone outcome =>
    simp only [TransactionalPublisherSystem.step]
    split
    · exact h
    · rcases outcome with _ | ⟨_ | _⟩ <;>
        exact ⟨by simp [commitSucceeded, commitFinalized, AmqpBroker.commit,
          AmqpBroker.rollback], by simp [commitSucceeded, commitFinalized]⟩
  | publishMessagesRaw queue =>
    simp only [TransactionalPublisherSystem.step]
    split
    · split
      · exact h
      · exact ⟨h.uncommitted_eq, h.deque_of_inFlight⟩
    · exact h
  | post =>
    simp only [TransactionalPublisherSystem.step]
    split
    · exact ⟨h.uncommitted_eq, h.deque_of_inFlight⟩
    · exact h
  | waitReturns =>
    simp only [TransactionalPublisherSystem.step]
    split
    · exact ⟨h.uncommitted_eq, h.deque_of_inFlight⟩
    · exact h
  | channelFailed => exact ⟨h.uncommitted_eq, h.deque_of_inFlight⟩
  | signal => exact ⟨h.uncommitted_eq, h.deque_of_inFlight⟩

/-! ### The call in progress -/

/-- Where the messages of the call in progress are, when the calls that returned so far are
`returned`: with the caller, posted to the strand, in the queue, or committed by the server. Until
they are committed the condition is clear, unless the publisher is stopping, and only the queue
can be in flight. -/
inductive CallStage (returned : List (List (String × M))) (s : TransactionalPublisherSystem M) :
    Prop
  | idle (hc : s.caller = .idle) (hp : s.posted = []) (hq : s.publisher.messageDeque = [])
      (hf : s.publisher.inFlight = false) (hl : s.broker.committed = returned.flatten)
  | unset {queue : List (String × M)} (hc : s.caller = .unset queue) (hp : s.posted = [])
      (hq : s.publisher.messageDeque = []) (hf : s.publisher.inFlight = false)
      (hl : s.broker.committed = returned.flatten)
      (ha : s.publisher.acked = false ∨ s.publisher.stopping = true)
  | posted {queue : List (String × M)} (hc : s.caller = .waiting queue) (hp : s.posted = [queue])
      (hq : s.publisher.messageDeque = []) (hf : s.publisher.inFlight = false)
      (hl : s.broker.committed = returned.flatten)
      (ha : s.publisher.acked = false ∨ s.publisher.stopping = true)
  | queued {queue : List (String × M)} (hc : s.caller = .waiting queue) (hp : s.posted = [])
      (hq : s.publisher.messageDeque = queue) (hl : s.broker.committed = returned.flatten)
      (ha : s.publisher.acked = false ∨ s.publisher.stopping = true)
  | committed {queue : List (String × M)} (hc : s.caller = .waiting queue) (hp : s.posted = [])
      (hq : s.publisher.messageDeque = []) (hf : s.publisher.inFlight = false)
      (hl : s.broker.committed = returned.flatten ++ queue) (ha : s.publisher.acked = true)

/-- The calls that returned after a step. -/
def returnedAfter (returned : List (List (String × M))) (o : Option (CallResult M)) :
    List (List (String × M)) :=
  returned ++ o.toList.filterMap CallResult.returned?

@[simp] theorem returnedAfter_none (returned : List (List (String × M))) :
    returnedAfter returned none = returned := by
  simp [returnedAfter]

theorem CallStage.init : CallStage [] (init : TransactionalPublisherSystem M) :=
  .idle rfl rfl rfl rfl rfl

/-- A step that changes nothing keeps the stage. -/
theorem CallStage.of_noop {R : List (List (String × M))} {s : TransactionalPublisherSystem M}
    (hs : CallStage R s) {x : TrxPublisherEvent M} (h : s.step x = (s, none)) :
    CallStage (returnedAfter R (s.step x).2) (s.step x).1 := by
  rw [h, returnedAfter_none]
  exact hs

/-- The stage does not read the channel, the open transaction or the strand's other fields. -/
theorem CallStage.congr {R : List (List (String × M))} {s s' : TransactionalPublisherSystem M}
    (hs : CallStage R s) (hc : s'.caller = s.caller) (hp : s'.posted = s.posted)
    (hq : s'.publisher.messageDeque = s.publisher.messageDeque)
    (hf : s'.publisher.inFlight = s.publisher.inFlight)
    (hl : s'.broker.committed = s.broker.committed) (ha : s'.publisher.acked = s.publisher.acked)
    (hst : s'.publisher.stopping = s.publisher.stopping) : CallStage R s' := by
  cases hs with
  | idle hc₀ hp₀ hq₀ hf₀ hl₀ =>
    exact .idle (hc.trans hc₀) (hp.trans hp₀) (hq.trans hq₀) (hf.trans hf₀) (hl.trans hl₀)
  | unset hc₀ hp₀ hq₀ hf₀ hl₀ ha₀ =>
    exact .unset (hc.trans hc₀) (hp.trans hp₀) (hq.trans hq₀) (hf.trans hf₀) (hl.trans hl₀)
      (by rw [ha, hst]; exact ha₀)
  | posted hc₀ hp₀ hq₀ hf₀ hl₀ ha₀ =>
    exact .posted (hc.trans hc₀) (hp.trans hp₀) (hq.trans hq₀) (hf.trans hf₀) (hl.trans hl₀)
      (by rw [ha, hst]; exact ha₀)
  | queued hc₀ hp₀ hq₀ hl₀ ha₀ =>
    exact .queued (hc.trans hc₀) (hp.trans hp₀) (hq.trans hq₀) (hl.trans hl₀)
      (by rw [ha, hst]; exact ha₀)
  | committed hc₀ hp₀ hq₀ hf₀ hl₀ ha₀ =>
    exact .committed (hc.trans hc₀) (hp.trans hp₀) (hq.trans hq₀) (hf.trans hf₀)
      (hl.trans hl₀) (ha.trans ha₀)

/-- A pump publishes only the call's queue, and only in `queued`. -/
theorem CallStage.deliver_pumpQueue {R : List (List (String × M))}
    {s : TransactionalPublisherSystem M} (hs : CallStage R s)
    {p : TransactionalAmqpPublisherImpl M} (hf : p.inFlight = s.publisher.inFlight)
    (hq : p.messageDeque = s.publisher.messageDeque) (ha : p.acked = s.publisher.acked)
    (hst : p.stopping = s.publisher.stopping) : CallStage R (s.deliver p.pumpQueue) := by
  rcases pumpQueue_cases p with hp | ⟨hpf, hne, hp⟩
  · rw [hp]
    exact hs.congr rfl rfl hq hf rfl ha hst
  · -- a transaction opens: the stage is `queued`, which does not read `in_flight`
    rw [hp]
    cases hs with
    | queued hc₀ hp₀ hq₀ hl₀ ha₀ =>
      exact .queued hc₀ hp₀ (hq.trans hq₀) hl₀ (by simpa [deliver, ha, hst] using ha₀)
    | idle _ _ hq₀ => exact absurd (hq.trans hq₀) hne
    | unset _ _ hq₀ => exact absurd (hq.trans hq₀) hne
    | posted _ _ hq₀ => exact absurd (hq.trans hq₀) hne
    | committed _ _ hq₀ => exact absurd (hq.trans hq₀) hne

theorem CallStage.of_idle {R : List (List (String × M))} {s : TransactionalPublisherSystem M}
    (hs : CallStage R s) (hc : s.caller = .idle) :
    s.posted = [] ∧ s.publisher.messageDeque = [] ∧ s.publisher.inFlight = false ∧
      s.broker.committed = R.flatten := by
  cases hs with
  | idle _ hp hq hf hl => exact ⟨hp, hq, hf, hl⟩
  | unset hc₀ => simp [hc₀] at hc
  | posted hc₀ => simp [hc₀] at hc
  | queued hc₀ => simp [hc₀] at hc
  | committed hc₀ => simp [hc₀] at hc

theorem CallStage.of_unset {R : List (List (String × M))} {s : TransactionalPublisherSystem M}
    (hs : CallStage R s) {queue : List (String × M)} (hc : s.caller = .unset queue) :
    s.posted = [] ∧ s.publisher.messageDeque = [] ∧ s.publisher.inFlight = false ∧
      s.broker.committed = R.flatten ∧
      (s.publisher.acked = false ∨ s.publisher.stopping = true) := by
  cases hs with
  | unset _ hp hq hf hl ha => exact ⟨hp, hq, hf, hl, ha⟩
  | idle hc₀ => simp [hc₀] at hc
  | posted hc₀ => simp [hc₀] at hc
  | queued hc₀ => simp [hc₀] at hc
  | committed hc₀ => simp [hc₀] at hc

/-- A call enters from `idle`; with an empty queue it returns at once. -/
theorem CallStage.publishMessagesRaw {R : List (List (String × M))}
    {s : TransactionalPublisherSystem M} (hs : CallStage R s) (queue : List (String × M)) :
    CallStage (returnedAfter R (s.step (.publishMessagesRaw queue)).2)
      (s.step (.publishMessagesRaw queue)).1 := by
  cases hc : s.caller with
  | idle =>
    obtain ⟨hp, hq, hf, hl⟩ := hs.of_idle hc
    by_cases hempty : queue.isEmpty
    · have hstep : s.step (.publishMessagesRaw queue) = (s, some (.returned [])) := by
        simp [TransactionalPublisherSystem.step, hc, hempty]
      rw [hstep]
      exact .idle hc hp hq hf (by simp [returnedAfter, CallResult.returned?, hl])
    · have hstep : s.step (.publishMessagesRaw queue) =
          ({ s with caller := .unset queue, publisher := { s.publisher with acked := false } },
            none) := by
        simp [TransactionalPublisherSystem.step, hc, hempty]
      rw [hstep, returnedAfter_none]
      exact .unset rfl hp hq hf hl (.inl rfl)
  | unset _ => exact hs.of_noop (by simp [TransactionalPublisherSystem.step, hc])
  | waiting _ => exact hs.of_noop (by simp [TransactionalPublisherSystem.step, hc])

/-- The caller posts the queue to an empty strand. -/
theorem CallStage.post {R : List (List (String × M))} {s : TransactionalPublisherSystem M}
    (hs : CallStage R s) : CallStage (returnedAfter R (s.step .post).2) (s.step .post).1 := by
  cases hc : s.caller with
  | unset queue =>
    obtain ⟨hp, hq, hf, hl, ha⟩ := hs.of_unset hc
    have hstep : s.step .post = ({ s with caller := .waiting queue, posted := [queue] }, none) := by
      simp [TransactionalPublisherSystem.step, hc, hp]
    rw [hstep, returnedAfter_none]
    exact .posted rfl rfl hq hf hl ha
  | idle => exact hs.of_noop (by simp [TransactionalPublisherSystem.step, hc])
  | waiting _ => exact hs.of_noop (by simp [TransactionalPublisherSystem.step, hc])

/-- A wait that returns before the commit, or while stopping, reports a fatal error. -/
theorem waitReturns_fatal {s : TransactionalPublisherSystem M} {queue : List (String × M)}
    (hc : s.caller = .waiting queue)
    (ha : s.publisher.acked = false ∨ s.publisher.stopping = true) :
    ∃ r ∈ (s.step .waitReturns).2, r.isFatal = true := by
  have herr : s.publisher.waitError = some "time out waiting on AMQP commit transaction success ack" := by
    rcases ha with ha | ha <;> simp [waitError, ha]
  exact ⟨.fatalError "time out waiting on AMQP commit transaction success ack",
    by simp [TransactionalPublisherSystem.step, hc, herr], rfl⟩

/-- Without a fatal error, a wait returns only after the commit, and the call returns its
queue. -/
theorem CallStage.waitReturns {R : List (List (String × M))} {s : TransactionalPublisherSystem M}
    (hs : CallStage R s) (hok : ∀ r ∈ (s.step .waitReturns).2, r.isFatal = false) :
    CallStage (returnedAfter R (s.step .waitReturns).2) (s.step .waitReturns).1 := by
  have hnotFatal : ∀ {queue}, s.caller = .waiting queue →
      ¬(s.publisher.acked = false ∨ s.publisher.stopping = true) := by
    intro queue hc ha
    obtain ⟨r, hr, hfatal⟩ := waitReturns_fatal hc ha
    simp [hok r hr] at hfatal
  cases hs with
  | committed hc hp hq hf hl ha =>
    rename_i queue
    have hst : s.publisher.stopping = false := by
      simpa using fun hst => hnotFatal hc (.inr hst)
    have hstep : s.step .waitReturns = ({ s with caller := .idle }, some (.returned queue)) := by
      simp [TransactionalPublisherSystem.step, hc, waitError, ha, hst]
    rw [hstep]
    exact .idle rfl hp hq hf (by simp [returnedAfter, CallResult.returned?, hl])
  | posted hc _ _ _ _ ha => exact absurd ha (hnotFatal hc)
  | queued hc _ _ _ ha => exact absurd ha (hnotFatal hc)
  | idle hc hp hq hf hl =>
    exact (CallStage.idle hc hp hq hf hl).of_noop
      (by simp [TransactionalPublisherSystem.step, hc])
  | unset hc hp hq hf hl ha =>
    exact (CallStage.unset hc hp hq hf hl ha).of_noop
      (by simp [TransactionalPublisherSystem.step, hc])

/-- The strand takes the posted queue into the drained queue of the publisher and pumps it. -/
theorem CallStage.runPosted {R : List (List (String × M))} {s : TransactionalPublisherSystem M}
    (hs : CallStage R s) : CallStage (returnedAfter R (s.step .runPosted).2) (s.step .runPosted).1 := by
  cases hs with
  | posted hc hp hq hf hl ha =>
    rename_i queue
    have hstep : s.step .runPosted =
        ({ s with posted := [], publisher := { s.publisher with messageDeque := queue } }.deliver
          { s.publisher with messageDeque := queue }.pumpQueue, none) := by
      simp [TransactionalPublisherSystem.step, hp, takeQueue, hq, deliver]
    have htaken : CallStage R
        { s with posted := [], publisher := { s.publisher with messageDeque := queue } } :=
      .queued hc rfl rfl hl ha
    rw [hstep, returnedAfter_none]
    exact htaken.deliver_pumpQueue rfl rfl rfl rfl
  | idle hc hp hq hf hl =>
    exact (CallStage.idle hc hp hq hf hl).of_noop (by simp [TransactionalPublisherSystem.step, hp])
  | unset hc hp hq hf hl ha =>
    exact (CallStage.unset hc hp hq hf hl ha).of_noop
      (by simp [TransactionalPublisherSystem.step, hp])
  | queued hc hp hq hl ha =>
    exact (CallStage.queued hc hp hq hl ha).of_noop (by simp [TransactionalPublisherSystem.step, hp])
  | committed hc hp hq hf hl ha =>
    exact (CallStage.committed hc hp hq hf hl ha).of_noop
      (by simp [TransactionalPublisherSystem.step, hp])

/-- A transaction is in flight only in `queued`; its success commits the call's queue. -/
theorem CallStage.commitDone {R : List (List (String × M))} {s : TransactionalPublisherSystem M}
    (hs : CallStage R s) (h : OpenTransaction s) {outcome : CommitOutcome}
    (hlost : outcome ≠ .error true) :
    CallStage (returnedAfter R (s.step (.commitDone outcome)).2)
      (s.step (.commitDone outcome)).1 := by
  by_cases hf : s.publisher.inFlight = true
  · have hopen : s.broker.uncommitted = s.publisher.messageDeque := by
      simpa [hf] using h.uncommitted_eq
    cases hs with
    | queued hc hp hq hl ha =>
      rcases outcome with _ | ⟨_ | _⟩
      · -- the server commits the queue, and the condition is set
        have hstep : s.step (.commitDone .success) =
            ({ s with publisher := s.publisher.commitSucceeded, broker := s.broker.commit }, none) := by
          simp [TransactionalPublisherSystem.step, hf]
        rw [hstep, returnedAfter_none]
        exact .committed hc hp rfl rfl (by simp [AmqpBroker.commit, hl, hopen, hq]) rfl
      · have hstep : s.step (.commitDone (.error false)) =
            ({ s with publisher := s.publisher.commitFinalized, broker := s.broker.rollback },
              none) := by
          simp [TransactionalPublisherSystem.step, hf]
        rw [hstep, returnedAfter_none]
        exact .queued hc hp hq hl ha
      · exact absurd rfl hlost
    | idle _ _ _ hf₀ => simp [hf₀] at hf
    | unset _ _ _ hf₀ => simp [hf₀] at hf
    | posted _ _ _ hf₀ => simp [hf₀] at hf
    | committed _ _ _ hf₀ => simp [hf₀] at hf
  · exact hs.of_noop (by simp [TransactionalPublisherSystem.step, hf])

/-- A signal stops the publisher; the stage holds with `stopping` set. -/
theorem CallStage.signal {R : List (List (String × M))} {s : TransactionalPublisherSystem M}
    (hs : CallStage R s) : CallStage (returnedAfter R (s.step .signal).2) (s.step .signal).1 := by
  rw [show (s.step .signal).2 = none from rfl, returnedAfter_none]
  cases hs with
  | idle hc hp hq hf hl => exact .idle hc hp hq hf hl
  | unset hc hp hq hf hl => exact .unset hc hp hq hf hl (.inr rfl)
  | posted hc hp hq hf hl => exact .posted hc hp hq hf hl (.inr rfl)
  | queued hc hp hq hl => exact .queued hc hp hq hl (.inr rfl)
  | committed hc hp hq hf hl => exact .committed hc hp hq hf hl rfl

theorem CallStage.step {R : List (List (String × M))} {s : TransactionalPublisherSystem M}
    (hs : CallStage R s) (h : OpenTransaction s) (x : TrxPublisherEvent M)
    (hx : x ≠ .commitDone (.error true)) (hok : ∀ r ∈ (s.step x).2, r.isFatal = false) :
    CallStage (returnedAfter R (s.step x).2) (s.step x).1 := by
  cases x with
  | publishMessagesRaw queue => exact hs.publishMessagesRaw queue
  | post => exact hs.post
  | waitReturns => exact hs.waitReturns hok
  | runPosted => exact hs.runPosted
  | channelReady =>
    rw [show (s.step .channelReady).2 = none from rfl, returnedAfter_none]
    exact hs.deliver_pumpQueue rfl rfl rfl rfl
  | channelFailed =>
    rw [show (s.step .channelFailed).2 = none from rfl, returnedAfter_none]
    exact hs.congr rfl rfl rfl rfl rfl rfl rfl
  | commitDone outcome => exact hs.commitDone h fun hlost => hx (by rw [hlost])
  | pumpQueue =>
    rw [show (s.step .pumpQueue).2 = none from rfl, returnedAfter_none]
    exact hs.deliver_pumpQueue rfl rfl rfl rfl
  | signal => exact hs.signal

/-- Along a run without a fatal error or a lost answer, the stage of the call in progress holds
for the calls that returned. -/
theorem run_stage :
    ∀ (xs : List (TrxPublisherEvent M)) {s : TransactionalPublisherSystem M}
      {R : List (List (String × M))}, OpenTransaction s → CallStage R s →
      TrxPublisherEvent.commitDone (.error true) ∉ xs →
      (∀ r ∈ (run s xs).2, r.isFatal = false) →
      OpenTransaction (run s xs).1 ∧
        CallStage (R ++ (run s xs).2.filterMap CallResult.returned?) (run s xs).1
  | [], _, _, h, hs, _, _ => ⟨h, by simpa [run] using hs⟩
  | x :: xs, s, R, h, hs, hlost, hok => by
    have hx : x ≠ .commitDone (.error true) := fun hx => hlost (hx ▸ List.mem_cons_self)
    have hfirst : ∀ r ∈ (s.step x).2, r.isFatal = false := fun r hr =>
      hok r (List.mem_append_left _ (Option.mem_toList.mpr hr))
    have hrest := run_stage xs (h.step x) (hs.step h x hx hfirst)
      (fun hmem => hlost (List.mem_cons_of_mem x hmem))
      (fun r hr => hok r (List.mem_append_right _ hr))
    -- the calls returned in the first step, then in the rest of the run
    simpa [run, returnedAfter, List.filterMap_append, List.append_assoc] using hrest

/-- **Committed before returned.** Along every run from a new publisher in which no fatal error
is reported and the server never commits a transaction whose answer is lost, the server has
committed the messages of the calls that returned, in the order of the calls and once each,
and besides them at most the messages of the call whose wait is in progress. -/
theorem run_committed (xs : List (TrxPublisherEvent M))
    (hlost : TrxPublisherEvent.commitDone (.error true) ∉ xs)
    (hfatal : ∀ r ∈ (run init xs).2, r.isFatal = false) :
    ∃ pending, (run init xs).1.broker.committed =
        ((run init xs).2.filterMap CallResult.returned?).flatten ++ pending ∧
      (pending = [] ∨ (run init xs).1.caller = .waiting pending) := by
  obtain ⟨-, hs⟩ := run_stage xs OpenTransaction.init CallStage.init hlost hfatal
  rw [List.nil_append] at hs
  cases hs with
  | idle _ _ _ _ hl => exact ⟨[], by rw [hl, List.append_nil], .inl rfl⟩
  | unset _ _ _ _ hl => exact ⟨[], by rw [hl, List.append_nil], .inl rfl⟩
  | posted _ _ _ _ hl => exact ⟨[], by rw [hl, List.append_nil], .inl rfl⟩
  | queued _ _ _ hl => exact ⟨[], by rw [hl, List.append_nil], .inl rfl⟩
  | committed hc _ _ _ hl => exact ⟨_, hl, .inr hc⟩

/-- Two calls: the first commit is rolled back and the posted pump publishes the queue again;
the second call is committed and its wait has not returned yet. -/
def exampleTrxEvents : List (TrxPublisherEvent ℕ) :=
  [.channelReady, .publishMessagesRaw [("rk", 1), ("rk", 2)], .post, .runPosted,
    .commitDone (.error false), .pumpQueue, .commitDone .success, .waitReturns,
    .publishMessagesRaw [("rk", 3)], .post, .runPosted, .commitDone .success]

theorem run_committed_exampleTrxEvents :
    TrxPublisherEvent.commitDone (.error true) ∉ exampleTrxEvents ∧
      (∀ r ∈ (run init exampleTrxEvents).2, r.isFatal = false) ∧
      ∃ pending, (run init exampleTrxEvents).1.broker.committed =
          ((run init exampleTrxEvents).2.filterMap CallResult.returned?).flatten ++ pending ∧
        (pending = [] ∨ (run init exampleTrxEvents).1.caller = .waiting pending) :=
  ⟨by decide, by decide, run_committed exampleTrxEvents (by decide) (by decide)⟩

end TransactionalPublisherSystem

end Eosio
