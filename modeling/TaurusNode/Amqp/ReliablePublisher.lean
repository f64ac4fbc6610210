import Mathlib
import TaurusNode.Lib.Ledger

/-!
# The reliable AMQP publisher

A model of `reliable_amqp_publisher_impl` (libraries/amqp/reliable_amqp_publisher.cpp) together
with the AMQP server it publishes to. Messages wait in `message_deque`, each with the number of
the `publish_messages_raw` call that queued it (`num`, 0 for a message queued alone);
`pump_queue` publishes the front of the queue in one AMQP transaction: the messages that share
the first one's number, and of single messages at most `max_msg_single_transaction + 1`. The
commit's `onSuccess` erases them; its `onFinalize` clears `in_flight` and posts another pump. The
destructor writes the queue to the unconfirmed file and the constructor loads it back.

The server (`AmqpBroker`) keeps the messages published in the open transaction and those it has
committed. How a commit ends is the environment's choice (`CommitOutcome`): committed and
answered, rolled back, or committed with the answer lost. The channel comes and goes
(`channel_ready`, `channel_failed`), the pumps that `onFinalize` posts run at any time, and the
publisher may be stopped and restarted between any two events.

* `pumpQueue_eq`: the transaction is the first batch whole, or the leading single messages up to
  `max_msg_single_transaction + 1`, that is 17.
* `run_atLeastOnce`: along every run no message is lost: the queue is what was queued with a
  prefix taken off, and the server committed that prefix, in order.
* `run_exactlyOnce`: when no commit's answer is lost, the server holds every message exactly once,
  in the order it was queued, except those still queued.
* `run_wholeBatches`: when no batch is empty, the queue holds whole calls: a batch is never split
  between two transactions.

All three rest on `Inv` (the server's open transaction is the messages in flight, at the front of
the queue); the last also on `BatchInv` (the last message queued has the current batch number or
is single, and the messages in flight end where a batch ends).

The envelope (the default routing key, the message id, the persistence and correlation id
headers) is left out: the server's log holds the queued messages themselves.
`publish_message_direct`, which bypasses the queue, and the posting of calls from other threads
onto the publisher's strand are left out. Only clean restarts are modelled: a crash skips the
destructor, and the constructor removed the file when it loaded it.
-/

namespace Eosio

/-- `reliable_amqp_publisher_impl::amqp_message`. -/
structure AmqpMessage (M : Type) where
  /-- The number of the `publish_messages_raw` call that queued the message, 0 for a single. -/
  num : UInt32
  routingKey : String
  correlationId : String
  data : M
deriving DecidableEq, Repr

/-- The fields of `reliable_amqp_publisher_impl` that its operations read. -/
structure ReliableAmqpPublisherImpl (M : Type) where
  /-- `channel != nullptr`. -/
  channel : Bool
  stopping : Bool
  inFlight : ℕ
  batchNum : UInt32
  messageDeque : List (AmqpMessage M)
deriving DecidableEq, Repr

variable {M : Type}

/-- What the server is sent of a message, its number apart. -/
def AmqpMessage.content (m : AmqpMessage M) : String × String × M :=
  (m.routingKey, m.correlationId, m.data)

namespace ReliableAmqpPublisherImpl

/-- `max_msg_single_transaction`. -/
def maxMsgSingleTransaction : ℕ := 16

/-- `max_queued_messages`. -/
def maxQueuedMessages : ℕ := 2 ^ 20

/-- The loop of `pump_queue`: with `in_flight` messages published, the last with number `prev`,
how many messages it has published when it breaks. -/
def pumpLoop : ℕ → UInt32 → List (AmqpMessage M) → ℕ
  | inFlight, _, [] => inFlight
  | inFlight, prev, msg :: rest =>
    if inFlight ≠ 0 ∧ msg.num ≠ prev then inFlight
    else if inFlight > maxMsgSingleTransaction ∧ msg.num = 0 then inFlight
    else pumpLoop (inFlight + 1) msg.num rest

/-- `pump_queue`: the publisher after it, and the messages it publishes in a transaction. -/
def pumpQueue (p : ReliableAmqpPublisherImpl M) :
    ReliableAmqpPublisherImpl M × List (AmqpMessage M) :=
  if p.stopping || p.inFlight != 0 || !p.channel || p.messageDeque.isEmpty then (p, [])
  else
    let inFlight := pumpLoop 0 0 p.messageDeque
    ({ p with inFlight := inFlight }, p.messageDeque.take inFlight)

/-- `verify_max_queue_size`: the error `on_fatal_error` is called with when the queue is over
its bound; the message is queued all the same. -/
def verifyMaxQueueSize (exchange : String) (p : ReliableAmqpPublisherImpl M) : Option String :=
  if p.messageDeque.length > maxQueuedMessages then
    some ("AMQP publishing to " ++ exchange ++ " has reached " ++
      toString p.messageDeque.length ++ " unconfirmed messages")
  else none

/-- `publish_message_raw(routing_key, correlation_id, data)`; the overload with the data alone
passes an empty routing key and correlation id. -/
def publishMessageRaw (routingKey correlationId : String) (data : M)
    (p : ReliableAmqpPublisherImpl M) : ReliableAmqpPublisherImpl M × List (AmqpMessage M) :=
  pumpQueue { p with messageDeque := p.messageDeque ++ [⟨0, routingKey, correlationId, data⟩] }

/-- The increment of `batch_num` in `publish_messages_raw`, which skips 0. -/
def nextBatchNum (batchNum : UInt32) : UInt32 :=
  if batchNum + 1 = 0 then batchNum + 2 else batchNum + 1

/-- The messages `publish_messages_raw` queues: the first of each pair is the correlation id
(the header calls it the routing key), the routing key is empty. -/
def batchMessages (batchNum : UInt32) (queue : List (String × M)) : List (AmqpMessage M) :=
  queue.map fun d => ⟨batchNum, "", d.1, d.2⟩

/-- `publish_messages_raw`. -/
def publishMessagesRaw (queue : List (String × M)) (p : ReliableAmqpPublisherImpl M) :
    ReliableAmqpPublisherImpl M × List (AmqpMessage M) :=
  let batchNum := nextBatchNum p.batchNum
  pumpQueue
    { p with batchNum := batchNum, messageDeque := p.messageDeque ++ batchMessages batchNum queue }

/-- `channel_ready`. -/
def channelReady (p : ReliableAmqpPublisherImpl M) :
    ReliableAmqpPublisherImpl M × List (AmqpMessage M) :=
  pumpQueue { p with channel := true }

/-- `channel_failed`. -/
def channelFailed (p : ReliableAmqpPublisherImpl M) : ReliableAmqpPublisherImpl M :=
  { p with channel := false }

/-- The commit's `onSuccess`: erase the messages in flight. -/
def commitSucceeded (p : ReliableAmqpPublisherImpl M) : ReliableAmqpPublisherImpl M :=
  { p with messageDeque := p.messageDeque.drop p.inFlight }

/-- The commit's `onFinalize`, up to the pump it posts. -/
def commitFinalized (p : ReliableAmqpPublisherImpl M) : ReliableAmqpPublisherImpl M :=
  { p with inFlight := 0 }

/-- The constructor, from the queue in the unconfirmed file (empty when there is no file). -/
def load (file : List (AmqpMessage M)) : ReliableAmqpPublisherImpl M where
  channel := false
  stopping := false
  inFlight := 0
  batchNum := match file.getLast? with
    | some m => m.num
    | none => 0
  messageDeque := file

/-! ### The transaction `pump_queue` publishes -/

theorem pumpLoop_le (prev : UInt32) : ∀ (l : List (AmqpMessage M)) (n : ℕ),
    pumpLoop n prev l ≤ n + l.length
  | [], n => by simp [pumpLoop]
  | msg :: rest, n => by
    have ih := pumpLoop_le msg.num rest (n + 1)
    simp only [pumpLoop, List.length_cons]
    split_ifs <;> omega

/-- Inside a batch the loop runs to the batch's last message. -/
theorem pumpLoop_batch {k : UInt32} (hk : k ≠ 0) :
    ∀ (l : List (AmqpMessage M)) {n : ℕ}, n ≠ 0 →
      pumpLoop n k l = n + (l.takeWhile (·.num == k)).length
  | [], n, _ => by simp [pumpLoop]
  | msg :: rest, n, hn => by
    by_cases hmsg : msg.num = k
    · have ih := pumpLoop_batch hk rest (n := n + 1) (by omega)
      simp only [pumpLoop, hmsg, hk, ne_eq, not_true_eq_false, and_false, if_false, ih,
        List.takeWhile_cons, beq_self_eq_true, if_true, List.length_cons]
      omega
    · simp [pumpLoop, hmsg, hn]

/-- Among single messages the loop runs until it has published `max_msg_single_transaction + 1`
of them. -/
theorem pumpLoop_single :
    ∀ (l : List (AmqpMessage M)) {n : ℕ}, n ≠ 0 → n ≤ maxMsgSingleTransaction + 1 →
      pumpLoop n 0 l =
        n + min (maxMsgSingleTransaction + 1 - n) (l.takeWhile (·.num == 0)).length
  | [], n, _, _ => by simp [pumpLoop]
  | msg :: rest, n, hn, hle => by
    by_cases hmsg : msg.num = 0
    · by_cases hfull : n > maxMsgSingleTransaction
      · -- the transaction is full
        have hn' : n = maxMsgSingleTransaction + 1 := by omega
        simp [pumpLoop, hmsg, hn']
      · have ih := pumpLoop_single rest (n := n + 1) (by omega) (by omega)
        simp only [pumpLoop, hmsg, ne_eq, not_true_eq_false, and_false, if_false, hfull,
          false_and, ih, List.takeWhile_cons, beq_self_eq_true, if_true, List.length_cons]
        omega
    · simp [pumpLoop, hmsg, hn]

/-- The number of messages `pump_queue` publishes from a queue: the leading messages with the
first one's number, and of single messages at most `max_msg_single_transaction + 1`. -/
theorem pumpLoop_cons (msg : AmqpMessage M) (rest : List (AmqpMessage M)) :
    pumpLoop 0 0 (msg :: rest) =
      if msg.num = 0 then
        min (maxMsgSingleTransaction + 1) ((msg :: rest).takeWhile (·.num == 0)).length
      else ((msg :: rest).takeWhile (·.num == msg.num)).length := by
  have hstart : pumpLoop 0 0 (msg :: rest) = pumpLoop 1 msg.num rest := by
    simp [pumpLoop, maxMsgSingleTransaction]
  rw [hstart]
  by_cases hmsg : msg.num = 0
  · have h := pumpLoop_single rest (n := 1) one_ne_zero (by simp [maxMsgSingleTransaction])
    rw [hmsg, h, if_pos rfl, List.takeWhile_cons_of_pos (by simp [hmsg]), List.length_cons]
    omega
  · have h := pumpLoop_batch hmsg rest (n := 1) one_ne_zero
    rw [h, if_neg hmsg, List.takeWhile_cons_of_pos (by simp), List.length_cons]
    omega

private theorem take_length_takeWhile (p : α → Bool) (l : List α) :
    l.take (l.takeWhile p).length = l.takeWhile p := by
  have h := List.takeWhile_append_dropWhile (p := p) (l := l)
  calc l.take (l.takeWhile p).length
    _ = (l.takeWhile p ++ l.dropWhile p).take (l.takeWhile p).length := by rw [h]
    _ = l.takeWhile p := List.take_left' rfl

private theorem drop_length_takeWhile (p : α → Bool) (l : List α) :
    l.drop (l.takeWhile p).length = l.dropWhile p := by
  have h := List.takeWhile_append_dropWhile (p := p) (l := l)
  calc l.drop (l.takeWhile p).length
    _ = (l.takeWhile p ++ l.dropWhile p).drop (l.takeWhile p).length := by rw [h]
    _ = l.dropWhile p := List.drop_left' rfl

private theorem take_min_length_takeWhile (p : α → Bool) (l : List α) (k : ℕ) :
    l.take (min k (l.takeWhile p).length) = (l.takeWhile p).take k := by
  have h := List.takeWhile_append_dropWhile (p := p) (l := l)
  calc l.take (min k (l.takeWhile p).length)
    _ = (l.takeWhile p ++ l.dropWhile p).take (min k (l.takeWhile p).length) := by rw [h]
    _ = (l.takeWhile p).take (min k (l.takeWhile p).length) :=
      List.take_append_of_le_length (Nat.min_le_right _ _)
    _ = (l.takeWhile p).take k := List.take_eq_take_min.symm

/-- `pump_queue` on a publisher that can publish: the transaction is the first batch, whole, or
when the first message is single, the leading single messages up to
`max_msg_single_transaction + 1`. -/
theorem pumpQueue_eq (p : ReliableAmqpPublisherImpl M)
    (hready : p.stopping = false ∧ p.inFlight = 0 ∧ p.channel = true)
    {msg : AmqpMessage M} {rest : List (AmqpMessage M)} (hq : p.messageDeque = msg :: rest) :
    p.pumpQueue.2 =
      if msg.num = 0 then
        ((msg :: rest).takeWhile (·.num == 0)).take (maxMsgSingleTransaction + 1)
      else (msg :: rest).takeWhile (·.num == msg.num) := by
  obtain ⟨hs, hf, hc⟩ := hready
  have htake : p.pumpQueue.2 = (msg :: rest).take (pumpLoop 0 0 (msg :: rest)) := by
    simp [pumpQueue, hs, hf, hc, hq]
  rw [htake, pumpLoop_cons]
  by_cases hmsg : msg.num = 0
  · rw [if_pos hmsg, if_pos hmsg, take_min_length_takeWhile]
  · rw [if_neg hmsg, if_neg hmsg, take_length_takeWhile]

/-- A publisher that can publish, with twenty single messages queued. -/
def exampleSingles : ReliableAmqpPublisherImpl ℕ :=
  ⟨true, false, 0, 0, List.replicate 20 ⟨0, "", "", 0⟩⟩

theorem pumpQueue_eq_exampleSingles :
    (exampleSingles.stopping = false ∧ exampleSingles.inFlight = 0 ∧
        exampleSingles.channel = true) ∧
      exampleSingles.pumpQueue.2 =
        if (⟨0, "", "", 0⟩ : AmqpMessage ℕ).num = 0 then
          ((⟨0, "", "", 0⟩ :: List.replicate 19 ⟨0, "", "", 0⟩).takeWhile (·.num == 0)).take
            (maxMsgSingleTransaction + 1)
        else (⟨0, "", "", 0⟩ :: List.replicate 19 ⟨0, "", "", 0⟩).takeWhile
          (·.num == (⟨0, "", "", 0⟩ : AmqpMessage ℕ).num) :=
  ⟨by decide, pumpQueue_eq exampleSingles (by decide) rfl⟩

example : exampleSingles.pumpQueue.2.length = 17 := by decide

/-! ### Batches -/

/-- Two neighbouring messages of the queue were queued by one `publish_messages_raw` call. -/
def sameBatch (a b : AmqpMessage M) : Bool :=
  a.num != 0 && a.num == b.num

/-- The queue cut into the calls that queued it: a single message alone, the messages of a batch
together. -/
def batches (q : List (AmqpMessage M)) : List (List (AmqpMessage M)) :=
  q.splitBy sameBatch

/-- Cutting the queue after `n` messages does not split a batch. -/
def BatchBoundary (q : List (AmqpMessage M)) (n : ℕ) : Prop :=
  ∀ a ∈ (q.take n).getLast?, ∀ b ∈ (q.drop n).head?, sameBatch a b = false

theorem sameBatch_of_single {a : AmqpMessage M} (ha : a.num = 0) (b : AmqpMessage M) :
    sameBatch a b = false := by
  simp [sameBatch, ha]

theorem sameBatch_of_num_ne {a b : AmqpMessage M} (h : a.num ≠ b.num) : sameBatch a b = false := by
  simp [sameBatch, h]

theorem sameBatch_single (a : AmqpMessage M) {b : AmqpMessage M} (hb : b.num = 0) :
    sameBatch a b = false := by
  by_cases ha : a.num = 0
  · exact sameBatch_of_single ha b
  · exact sameBatch_of_num_ne (by rw [hb]; exact ha)

theorem nextBatchNum_ne_zero (batchNum : UInt32) : nextBatchNum batchNum ≠ 0 := by
  unfold nextBatchNum
  split <;> grind

theorem nextBatchNum_ne_self (batchNum : UInt32) : nextBatchNum batchNum ≠ batchNum := by
  unfold nextBatchNum
  split <;> grind

theorem num_of_mem_batchMessages {k : UInt32} {queue : List (String × M)} {a : AmqpMessage M}
    (ha : a ∈ batchMessages k queue) : a.num = k := by
  obtain ⟨d, -, rfl⟩ := List.mem_map.mp ha
  rfl

@[simp] theorem batchMessages_eq_nil {k : UInt32} {queue : List (String × M)} :
    batchMessages k queue = [] ↔ queue = [] := by
  simp [batchMessages]

@[simp] theorem map_content_batchMessages (k : UInt32) (queue : List (String × M)) :
    (batchMessages k queue).map AmqpMessage.content = queue.map fun d => ("", d.1, d.2) := by
  simp [batchMessages, AmqpMessage.content, Function.comp_def]

theorem batches_append {l m : List (AmqpMessage M)}
    (h : ∀ a ∈ l.getLast?, ∀ b ∈ m.head?, sameBatch a b = false) :
    batches (l ++ m) = batches l ++ batches m :=
  List.splitBy_append h

theorem batches_eq_take_drop {q : List (AmqpMessage M)} {n : ℕ} (h : BatchBoundary q n) :
    batches q = batches (q.take n) ++ batches (q.drop n) := by
  rw [← batches_append h, List.take_append_drop]

theorem batches_singleton (m : AmqpMessage M) : batches [m] = [[m]] :=
  List.splitBy_of_isChain (List.cons_ne_nil _ _) (List.isChain_singleton _)

/-- The messages of one `publish_messages_raw` call form one batch. -/
theorem batches_batchMessages {k : UInt32} (hk : k ≠ 0) {queue : List (String × M)}
    (hq : queue ≠ []) : batches (batchMessages k queue) = [batchMessages k queue] := by
  apply List.splitBy_of_isChain (by simpa using hq)
  apply List.Pairwise.isChain
  apply List.pairwise_of_forall_mem_list
  intro a ha b hb
  simp [sameBatch, num_of_mem_batchMessages ha, num_of_mem_batchMessages hb, hk]

theorem flatten_batches (q : List (AmqpMessage M)) : (batches q).flatten = q :=
  List.flatten_splitBy _ q

theorem batchBoundary_zero (q : List (AmqpMessage M)) : BatchBoundary q 0 := by
  simp [BatchBoundary]

/-- New messages that do not continue the batch at the back of the queue keep every cut that
did not split a batch. -/
theorem BatchBoundary.append {q new : List (AmqpMessage M)} {n : ℕ} (h : BatchBoundary q n)
    (hn : n ≤ q.length) (hnew : ∀ a ∈ q.getLast?, ∀ b ∈ new.head?, sameBatch a b = false) :
    BatchBoundary (q ++ new) n := by
  intro a ha b hb
  rw [List.take_append_of_le_length hn] at ha
  rw [List.drop_append_of_le_length hn] at hb
  by_cases hd : q.drop n = []
  · -- the cut is at the back of the old queue: the first new message follows it
    have hlen : n = q.length := le_antisymm hn (List.drop_eq_nil_iff.mp hd)
    rw [hd, List.nil_append] at hb
    rw [hlen, List.take_length] at ha
    exact hnew a ha b hb
  · rw [List.head?_append_of_ne_nil _ hd] at hb
    exact h a ha b hb

/-- The loop of `pump_queue` stops where a batch ends. -/
theorem batchBoundary_pumpLoop (q : List (AmqpMessage M)) : BatchBoundary q (pumpLoop 0 0 q) := by
  cases q with
  | nil => simp [BatchBoundary]
  | cons msg rest =>
    intro a ha b hb
    have ha' := List.mem_of_mem_getLast? ha
    rw [pumpLoop_cons] at ha' hb
    by_cases hmsg : msg.num = 0
    · -- every message taken is single
      rw [if_pos hmsg, take_min_length_takeWhile] at ha'
      have hsingle := List.mem_takeWhile_imp (List.mem_of_mem_take ha')
      exact sameBatch_of_single (by simpa using hsingle) b
    · -- the batch is taken whole: the next message has another number
      rw [if_neg hmsg, take_length_takeWhile] at ha'
      rw [if_neg hmsg, drop_length_takeWhile] at hb
      have hnext := List.head?_dropWhile_not (·.num == msg.num) (msg :: rest)
      rw [Option.mem_def.mp hb] at hnext
      have hother : b.num ≠ msg.num := by simpa using hnext
      have hsame : a.num = msg.num := by simpa using List.mem_takeWhile_imp ha'
      exact sameBatch_of_num_ne (by rw [hsame]; exact hother.symm)

/-! ### The publisher's operations -/

theorem pumpQueue_cases (p : ReliableAmqpPublisherImpl M) :
    p.pumpQueue = (p, []) ∨
      p.inFlight = 0 ∧ p.messageDeque ≠ [] ∧
        p.pumpQueue = ({ p with inFlight := pumpLoop 0 0 p.messageDeque },
          p.messageDeque.take (pumpLoop 0 0 p.messageDeque)) := by
  unfold pumpQueue
  split
  · exact .inl rfl
  · rename_i hready
    simp only [Bool.or_eq_true, bne_iff_ne, ne_eq, Bool.not_eq_eq_eq_not, Bool.not_true,
      List.isEmpty_iff, not_or] at hready
    exact .inr ⟨by simpa using hready.1.1.2, hready.2, rfl⟩

@[simp] theorem pumpQueue_messageDeque (p : ReliableAmqpPublisherImpl M) :
    p.pumpQueue.1.messageDeque = p.messageDeque := by
  rcases pumpQueue_cases p with h | ⟨-, -, h⟩ <;> rw [h]

@[simp] theorem pumpQueue_batchNum (p : ReliableAmqpPublisherImpl M) :
    p.pumpQueue.1.batchNum = p.batchNum := by
  rcases pumpQueue_cases p with h | ⟨-, -, h⟩ <;> rw [h]

end ReliableAmqpPublisherImpl

/-- The AMQP server, as far as a publisher reaches it: the messages published in the open
transaction, and those committed. -/
structure AmqpBroker (α : Type) where
  uncommitted : List α
  committed : List α
deriving DecidableEq, Repr

namespace AmqpBroker

variable {α : Type}

/-- `channel->publish` of messages, inside the open transaction. -/
def publish (b : AmqpBroker α) (msgs : List α) : AmqpBroker α :=
  { b with uncommitted := b.uncommitted ++ msgs }

/-- The server commits the open transaction. -/
def commit (b : AmqpBroker α) : AmqpBroker α :=
  ⟨[], b.committed ++ b.uncommitted⟩

/-- The server drops the open transaction. -/
def rollback (b : AmqpBroker α) : AmqpBroker α :=
  { b with uncommitted := [] }

end AmqpBroker

/-- How a commit the publisher sent ends. -/
inductive CommitOutcome
  /-- The server committed and `onSuccess` ran. -/
  | success
  /-- `onError` ran; `committed` says whether the server had committed all the same (its answer
  was lost with the channel). -/
  | error (committed : Bool)
deriving DecidableEq, Repr

/-- What can happen to the publisher: calls of its interface, events of the channel, the end of
a commit, a posted pump, and a restart. -/
inductive PublisherEvent (M : Type)
  | publishMessageRaw (routingKey correlationId : String) (data : M)
  | publishMessagesRaw (queue : List (String × M))
  | channelReady
  | channelFailed
  | commitDone (outcome : CommitOutcome)
  /-- The pump that `onFinalize` posted runs. -/
  | pumpQueue
  /-- The destructor sets `stopping`. -/
  | stop
  /-- The destructor writes the queue to the unconfirmed file and a new publisher loads it. -/
  | restart
deriving DecidableEq, Repr

namespace PublisherEvent

/-- The calls the event makes to queue messages, each as the messages it queues. -/
def calls : PublisherEvent M → List (List (String × String × M))
  | publishMessageRaw routingKey correlationId data => [[(routingKey, correlationId, data)]]
  | publishMessagesRaw queue => [queue.map fun d => ("", d.1, d.2)]
  | _ => []

/-- The messages the event queues. -/
def queued (x : PublisherEvent M) : List (String × String × M) :=
  x.calls.flatten

end PublisherEvent

/-- The publisher and the server. -/
structure AmqpPublisherSystem (M : Type) where
  publisher : ReliableAmqpPublisherImpl M
  broker : AmqpBroker (AmqpMessage M)

namespace AmqpPublisherSystem

open ReliableAmqpPublisherImpl

/-- A call of the publisher that may pump: the server receives what it publishes. -/
def deliver (s : AmqpPublisherSystem M)
    (r : ReliableAmqpPublisherImpl M × List (AmqpMessage M)) : AmqpPublisherSystem M :=
  ⟨r.1, s.broker.publish r.2⟩

/-- One event, and the error `on_fatal_error` is called with, if any. -/
def step (exchange : String) (s : AmqpPublisherSystem M) :
    PublisherEvent M → AmqpPublisherSystem M × Option String
  | .publishMessageRaw routingKey correlationId data =>
    (s.deliver (s.publisher.publishMessageRaw routingKey correlationId data),
      s.publisher.verifyMaxQueueSize exchange)
  | .publishMessagesRaw queue =>
    (s.deliver (s.publisher.publishMessagesRaw queue), s.publisher.verifyMaxQueueSize exchange)
  | .channelReady => (s.deliver s.publisher.channelReady, none)
  | .channelFailed => (⟨s.publisher.channelFailed, s.broker⟩, none)
  | .commitDone outcome =>
    -- only a commit that was sent ends
    if s.publisher.inFlight = 0 then (s, none)
    else
      match outcome with
      | .success => (⟨s.publisher.commitSucceeded.commitFinalized, s.broker.commit⟩, none)
      | .error true => (⟨s.publisher.commitFinalized, s.broker.commit⟩, none)
      | .error false => (⟨s.publisher.commitFinalized, s.broker.rollback⟩, none)
  | .pumpQueue => (s.deliver s.publisher.pumpQueue, none)
  | .stop => (⟨{ s.publisher with stopping := true }, s.broker⟩, none)
  | .restart => (⟨load s.publisher.messageDeque, s.broker.rollback⟩, none)

/-- The publisher and the server after a run of events. -/
def run (exchange : String) (s : AmqpPublisherSystem M) (xs : List (PublisherEvent M)) :
    AmqpPublisherSystem M :=
  xs.foldl (fun s x => (s.step exchange x).1) s

/-- A publisher started from the unconfirmed file, beside a server that has committed
`committed`. -/
def start (file committed : List (AmqpMessage M)) : AmqpPublisherSystem M :=
  ⟨load file, ⟨[], committed⟩⟩

@[simp] theorem deliver_publisher (s : AmqpPublisherSystem M)
    (r : ReliableAmqpPublisherImpl M × List (AmqpMessage M)) : (s.deliver r).publisher = r.1 := rfl

@[simp] theorem deliver_committed (s : AmqpPublisherSystem M)
    (r : ReliableAmqpPublisherImpl M × List (AmqpMessage M)) :
    (s.deliver r).broker.committed = s.broker.committed := rfl

@[simp] theorem deliver_uncommitted (s : AmqpPublisherSystem M)
    (r : ReliableAmqpPublisherImpl M × List (AmqpMessage M)) :
    (s.deliver r).broker.uncommitted = s.broker.uncommitted ++ r.2 := rfl

@[simp] theorem start_publisher (file committed : List (AmqpMessage M)) :
    (start file committed).publisher = load file := rfl

@[simp] theorem start_committed (file committed : List (AmqpMessage M)) :
    (start file committed).broker.committed = committed := rfl

/-! ### The server's open transaction -/

/-- The server's open transaction is the messages in flight, at the front of the queue. -/
structure Inv (s : AmqpPublisherSystem M) : Prop where
  inFlight_le : s.publisher.inFlight ≤ s.publisher.messageDeque.length
  uncommitted_eq : s.broker.uncommitted = s.publisher.messageDeque.take s.publisher.inFlight

theorem Inv.start (file committed : List (AmqpMessage M)) : Inv (start file committed) :=
  ⟨by simp [load], by simp [AmqpPublisherSystem.start, load]⟩

/-- A pump publishes, in a transaction the server opens, the messages it puts in flight. -/
theorem Inv.deliver_pumpQueue {s : AmqpPublisherSystem M} (h : Inv s) :
    Inv (s.deliver s.publisher.pumpQueue) := by
  rcases pumpQueue_cases s.publisher with hp | ⟨hf, -, hp⟩
  · rw [hp]
    exact ⟨h.inFlight_le, by simpa using h.uncommitted_eq⟩
  · have hnone : s.broker.uncommitted = [] := by simpa [hf] using h.uncommitted_eq
    rw [hp]
    refine ⟨?_, ?_⟩
    · simpa using pumpLoop_le 0 s.publisher.messageDeque 0
    · simp [hnone]

/-- Messages queued at the back leave the messages in flight as they were. -/
theorem Inv.enqueue {s : AmqpPublisherSystem M} (h : Inv s) {p : ReliableAmqpPublisherImpl M}
    {new : List (AmqpMessage M)} (hf : p.inFlight = s.publisher.inFlight)
    (hq : p.messageDeque = s.publisher.messageDeque ++ new) : Inv ⟨p, s.broker⟩ := by
  refine ⟨?_, ?_⟩
  · simp only [hf, hq, List.length_append]
    exact le_add_right h.inFlight_le
  · simp only [hf, hq, List.take_append_of_le_length h.inFlight_le]
    exact h.uncommitted_eq

theorem Inv.deliver_enqueue {s : AmqpPublisherSystem M} (h : Inv s)
    {p : ReliableAmqpPublisherImpl M} {new : List (AmqpMessage M)}
    (hf : p.inFlight = s.publisher.inFlight)
    (hq : p.messageDeque = s.publisher.messageDeque ++ new) : Inv (s.deliver p.pumpQueue) :=
  (h.enqueue hf hq).deliver_pumpQueue

theorem Inv.step (exchange : String) {s : AmqpPublisherSystem M} (h : Inv s)
    (x : PublisherEvent M) : Inv (s.step exchange x).1 := by
  cases x with
  | publishMessageRaw routingKey correlationId data => exact h.deliver_enqueue rfl rfl
  | publishMessagesRaw queue => exact h.deliver_enqueue rfl rfl
  | channelReady => exact h.deliver_enqueue rfl (List.append_nil _).symm
  | channelFailed => exact ⟨h.inFlight_le, h.uncommitted_eq⟩
  | commitDone outcome =>
    by_cases hf : s.publisher.inFlight = 0
    · simpa [AmqpPublisherSystem.step, hf] using h
    · -- the transaction ends: nothing is in flight and nothing is open at the server
      rcases outcome with _ | ⟨_ | _⟩ <;>
        exact ⟨by simp [AmqpPublisherSystem.step, hf, commitFinalized],
          by simp [AmqpPublisherSystem.step, hf, commitFinalized, AmqpBroker.commit,
            AmqpBroker.rollback]⟩
  | pumpQueue => exact h.deliver_pumpQueue
  | stop => exact ⟨h.inFlight_le, h.uncommitted_eq⟩
  | restart =>
    exact ⟨by simp [AmqpPublisherSystem.step, load],
      by simp [AmqpPublisherSystem.step, load, AmqpBroker.rollback]⟩

/-- One step takes a prefix of the queue off its front, and the server commits that prefix in
the same step, except when the server commits a transaction whose answer is lost: then the queue
keeps the messages the server committed. -/
theorem Inv.step_queue (exchange : String) {s : AmqpPublisherSystem M} (h : Inv s)
    (x : PublisherEvent M) :
    ∃ a c, s.publisher.messageDeque.map AmqpMessage.content ++ x.queued =
        a ++ (s.step exchange x).1.publisher.messageDeque.map AmqpMessage.content ∧
      (s.step exchange x).1.broker.committed.map AmqpMessage.content =
        s.broker.committed.map AmqpMessage.content ++ c ∧
      (a = c ∨ a = [] ∧ x = .commitDone (.error true)) := by
  cases x with
  | publishMessageRaw routingKey correlationId data =>
    refine ⟨[], [], ?_, by simp [AmqpPublisherSystem.step], .inl rfl⟩
    simp [AmqpPublisherSystem.step, publishMessageRaw, PublisherEvent.queued,
      PublisherEvent.calls, AmqpMessage.content]
  | publishMessagesRaw queue =>
    refine ⟨[], [], ?_, by simp [AmqpPublisherSystem.step], .inl rfl⟩
    simp [AmqpPublisherSystem.step, publishMessagesRaw, PublisherEvent.queued,
      PublisherEvent.calls]
  | commitDone outcome =>
    by_cases hf : s.publisher.inFlight = 0
    · refine ⟨[], [], ?_, ?_, .inl rfl⟩ <;>
        simp [AmqpPublisherSystem.step, hf, PublisherEvent.queued, PublisherEvent.calls]
    · -- the messages in flight: erased on success, committed unless rolled back
      rcases outcome with _ | _ | _
      · refine ⟨(s.publisher.messageDeque.take s.publisher.inFlight).map AmqpMessage.content,
          (s.publisher.messageDeque.take s.publisher.inFlight).map AmqpMessage.content,
          ?_, ?_, .inl rfl⟩
        · simp [AmqpPublisherSystem.step, hf, PublisherEvent.queued, PublisherEvent.calls,
            commitSucceeded, commitFinalized]
        · simp [AmqpPublisherSystem.step, hf, AmqpBroker.commit, h.uncommitted_eq]
      · refine ⟨[], [], ?_, ?_, .inl rfl⟩ <;>
          simp [AmqpPublisherSystem.step, hf, PublisherEvent.queued, PublisherEvent.calls,
            commitFinalized, AmqpBroker.rollback]
      · refine ⟨[], (s.publisher.messageDeque.take s.publisher.inFlight).map AmqpMessage.content,
          ?_, ?_, .inr ⟨rfl, rfl⟩⟩
        · simp [AmqpPublisherSystem.step, hf, PublisherEvent.queued, PublisherEvent.calls,
            commitFinalized]
        · simp [AmqpPublisherSystem.step, hf, AmqpBroker.commit, h.uncommitted_eq]
  | _ =>
    refine ⟨[], [], ?_, ?_, .inl rfl⟩ <;>
      simp [AmqpPublisherSystem.step, PublisherEvent.queued, PublisherEvent.calls, channelReady,
        channelFailed, load, AmqpBroker.rollback]

/-- **At least once.** Along every run from a started publisher, whatever the channel and the
server do, no message is lost: the queue is the messages of the file and of the run with a prefix
taken off, and the server has committed that prefix, in order, among what it committed during the
run. -/
theorem run_atLeastOnce (exchange : String) (file committed : List (AmqpMessage M))
    (xs : List (PublisherEvent M)) :
    ∃ a c, file.map AmqpMessage.content ++ xs.flatMap PublisherEvent.queued =
        a ++ (run exchange (start file committed) xs).publisher.messageDeque.map
          AmqpMessage.content ∧
      (run exchange (start file committed) xs).broker.committed.map AmqpMessage.content =
        committed.map AmqpMessage.content ++ c ∧ a.Sublist c := by
  have hrule := Ledger.queue_foldl (fun s x => (s.step exchange x).1) Inv (fun _ => True)
    (fun s => s.publisher.messageDeque.map AmqpMessage.content)
    (fun s => s.broker.committed.map AmqpMessage.content) PublisherEvent.queued
    (fun a c => a.Sublist c) (fun _ x hs _ => hs.step exchange x) (List.nil_sublist _)
    (fun h h' => h.append h')
    (fun _ x hs _ => by
      obtain ⟨a, c, hq, hl, hac⟩ := hs.step_queue exchange x
      refine ⟨a, c, hq, hl, ?_⟩
      rcases hac with rfl | ⟨rfl, -⟩
      · exact List.Sublist.refl _
      · exact List.nil_sublist _)
    xs (Inv.start file committed) (fun _ _ => trivial)
  simpa [run, load] using hrule

/-- **Exactly once.** When the server never commits a transaction whose answer is lost, it holds,
after what it had committed before, every message of the file and of the run that is not still
queued, once each and in the order they were queued. -/
theorem run_exactlyOnce (exchange : String) (file committed : List (AmqpMessage M))
    (xs : List (PublisherEvent M)) (hxs : PublisherEvent.commitDone (.error true) ∉ xs) :
    (run exchange (start file committed) xs).broker.committed.map AmqpMessage.content ++
        (run exchange (start file committed) xs).publisher.messageDeque.map AmqpMessage.content =
      committed.map AmqpMessage.content ++
        (file.map AmqpMessage.content ++ xs.flatMap PublisherEvent.queued) := by
  have hrule := Ledger.queue_foldl (fun s x => (s.step exchange x).1) Inv
    (fun x => x ≠ .commitDone (.error true))
    (fun s => s.publisher.messageDeque.map AmqpMessage.content)
    (fun s => s.broker.committed.map AmqpMessage.content) PublisherEvent.queued
    (fun a c => a = c) (fun _ x hs _ => hs.step exchange x) rfl (fun h h' => by rw [h, h'])
    (fun _ x hs hx => by
      obtain ⟨a, c, hq, hl, hac⟩ := hs.step_queue exchange x
      refine ⟨a, c, hq, hl, ?_⟩
      rcases hac with hac | ⟨-, hlost⟩
      · exact hac
      · exact absurd hlost hx)
    xs (Inv.start file committed) (fun x hx hlost => hxs (hlost ▸ hx))
  obtain ⟨a, c, hq, hl, rfl⟩ := hrule
  simp only [start_publisher, start_committed, load] at hq hl
  unfold run
  rw [hl, List.append_assoc, ← hq]

/-- A single message published before the channel is up, a batch, a commit, a transaction
rolled back, a restart, and the batch committed after it. -/
def exampleEvents : List (PublisherEvent ℕ) :=
  [.publishMessageRaw "" "" 1, .channelReady, .publishMessagesRaw [("a", 2), ("b", 3)],
    .commitDone .success, .pumpQueue, .commitDone (.error false), .restart, .channelReady,
    .commitDone .success]

theorem run_exactlyOnce_exampleEvents :
    PublisherEvent.commitDone (.error true) ∉ exampleEvents ∧
      (run "" (start [] []) exampleEvents).broker.committed.map AmqpMessage.content ++
          (run "" (start [] []) exampleEvents).publisher.messageDeque.map AmqpMessage.content =
        ([] : List (AmqpMessage ℕ)).map AmqpMessage.content ++
          (([] : List (AmqpMessage ℕ)).map AmqpMessage.content ++
            exampleEvents.flatMap PublisherEvent.queued) :=
  ⟨by decide, run_exactlyOnce "" [] [] exampleEvents (by decide)⟩

/-! ### Whole batches -/

/-- The last message queued is single or has the current batch number, and the messages in
flight end where a batch ends. -/
structure BatchInv (s : AmqpPublisherSystem M) : Prop where
  lastNum : ∀ a ∈ s.publisher.messageDeque.getLast?, a.num = 0 ∨ a.num = s.publisher.batchNum
  boundary : BatchBoundary s.publisher.messageDeque s.publisher.inFlight

/-- The constructor takes its batch number from the last message of the file. -/
theorem BatchInv.of_load (file : List (AmqpMessage M)) (b : AmqpBroker (AmqpMessage M)) :
    BatchInv ⟨load file, b⟩ := by
  refine ⟨fun a ha => .inr ?_, by simpa [load] using batchBoundary_zero file⟩
  have hlast : file.getLast? = some a := ha
  simp [load, hlast]

theorem BatchInv.deliver_pumpQueue {s : AmqpPublisherSystem M} (hb : BatchInv s) :
    BatchInv (s.deliver s.publisher.pumpQueue) := by
  rcases pumpQueue_cases s.publisher with hp | ⟨-, -, hp⟩
  · rw [hp]
    exact ⟨hb.lastNum, hb.boundary⟩
  · rw [hp]
    exact ⟨hb.lastNum, batchBoundary_pumpLoop _⟩

/-- Messages queued at the back that do not continue the batch before them keep the messages in
flight ending where a batch ends. -/
theorem BatchInv.deliver_enqueue {s : AmqpPublisherSystem M} (h : Inv s) (hb : BatchInv s)
    {p : ReliableAmqpPublisherImpl M} {new : List (AmqpMessage M)}
    (hf : p.inFlight = s.publisher.inFlight)
    (hq : p.messageDeque = s.publisher.messageDeque ++ new)
    (hnew : ∀ a ∈ s.publisher.messageDeque.getLast?, ∀ b ∈ new.head?, sameBatch a b = false)
    (hlast : ∀ a ∈ p.messageDeque.getLast?, a.num = 0 ∨ a.num = p.batchNum) :
    BatchInv (s.deliver p.pumpQueue) :=
  BatchInv.deliver_pumpQueue (s := ⟨p, s.broker⟩)
    ⟨hlast, by rw [hf, hq]; exact hb.boundary.append h.inFlight_le hnew⟩

/-- A single message never continues a batch. -/
theorem sameBatch_publishMessageRaw (q : List (AmqpMessage M)) (routingKey correlationId : String)
    (data : M) : ∀ a ∈ q.getLast?,
      ∀ b ∈ ([⟨0, routingKey, correlationId, data⟩] : List (AmqpMessage M)).head?,
        sameBatch a b = false := by
  intro a _ b hb
  rw [List.head?_cons, Option.mem_some_iff] at hb
  exact sameBatch_single a (by rw [← hb])

/-- The messages of `publish_messages_raw` never continue the batch at the back of the queue:
their number is the one after the current batch number. -/
theorem BatchInv.sameBatch_publishMessagesRaw {s : AmqpPublisherSystem M} (hb : BatchInv s)
    (queue : List (String × M)) :
    ∀ a ∈ s.publisher.messageDeque.getLast?,
      ∀ b ∈ (batchMessages (nextBatchNum s.publisher.batchNum) queue).head?,
        sameBatch a b = false := by
  intro a ha b hb'
  have hbnum := num_of_mem_batchMessages (List.mem_of_mem_head? hb')
  rcases hb.lastNum a ha with ha0 | hak
  · exact sameBatch_of_single ha0 b
  · exact sameBatch_of_num_ne (by rw [hak, hbnum]; exact (nextBatchNum_ne_self _).symm)

/-- When a transaction ends nothing is in flight, and the last message is one that was queued. -/
theorem BatchInv.finalize {s : AmqpPublisherSystem M} (hb : BatchInv s)
    {p : ReliableAmqpPublisherImpl M} (hp : p.batchNum = s.publisher.batchNum)
    (hq : ∀ a ∈ p.messageDeque.getLast?, a ∈ s.publisher.messageDeque.getLast?)
    (b : AmqpBroker (AmqpMessage M)) : BatchInv ⟨p.commitFinalized, b⟩ := by
  refine ⟨fun a ha => ?_, batchBoundary_zero _⟩
  rw [show p.commitFinalized.batchNum = s.publisher.batchNum from hp]
  exact hb.lastNum a (hq a ha)

theorem BatchInv.step (exchange : String) {s : AmqpPublisherSystem M} (h : Inv s)
    (hb : BatchInv s) (x : PublisherEvent M) (hx : [] ∉ x.calls) :
    BatchInv (s.step exchange x).1 := by
  cases x with
  | publishMessageRaw routingKey correlationId data =>
    refine hb.deliver_enqueue h rfl rfl (sameBatch_publishMessageRaw _ _ _ _) fun a ha => .inl ?_
    rw [List.getLast?_append, List.getLast?_singleton, Option.some_or, Option.mem_some_iff] at ha
    rw [← ha]
  | publishMessagesRaw queue =>
    have hq : queue ≠ [] := by simpa [PublisherEvent.calls] using hx
    refine hb.deliver_enqueue h rfl rfl (hb.sameBatch_publishMessagesRaw queue)
      fun a ha => .inr ?_
    -- the last message is one of the batch
    rw [List.getLast?_append_of_ne_nil _ (by simpa using hq)] at ha
    exact num_of_mem_batchMessages (List.mem_of_mem_getLast? ha)
  | channelReady => exact hb.deliver_enqueue h rfl (List.append_nil _).symm (by simp) hb.lastNum
  | channelFailed => exact ⟨hb.lastNum, hb.boundary⟩
  | commitDone outcome =>
    by_cases hf : s.publisher.inFlight = 0
    · simpa [AmqpPublisherSystem.step, hf] using hb
    · rcases outcome with _ | ⟨_ | _⟩ <;> simp only [AmqpPublisherSystem.step, if_neg hf]
      · -- the messages in flight leave the front of the queue
        refine hb.finalize (p := s.publisher.commitSucceeded) rfl (fun a ha => ?_) _
        simp only [commitSucceeded, List.getLast?_drop] at ha
        split at ha
        · simp at ha
        · exact ha
      · exact hb.finalize rfl (fun _ ha => ha) _
      · exact hb.finalize rfl (fun _ ha => ha) _
  | pumpQueue => exact hb.deliver_pumpQueue
  | stop => exact ⟨hb.lastNum, hb.boundary⟩
  | restart => exact BatchInv.of_load _ _

/-- One step takes whole calls off the front of the queue. -/
theorem BatchInv.step_batches (exchange : String) {s : AmqpPublisherSystem M} (h : Inv s)
    (hb : BatchInv s) (x : PublisherEvent M) (hx : [] ∉ x.calls) :
    ∃ A c, (batches s.publisher.messageDeque).map (List.map AmqpMessage.content) ++ x.calls =
        A ++ (batches (s.step exchange x).1.publisher.messageDeque).map
          (List.map AmqpMessage.content) ∧
      (s.step exchange x).1.broker.committed.map AmqpMessage.content =
        s.broker.committed.map AmqpMessage.content ++ c ∧
      A.flatten.Sublist c := by
  cases x with
  | publishMessageRaw routingKey correlationId data =>
    refine ⟨[], [], ?_, by simp [AmqpPublisherSystem.step], List.nil_sublist _⟩
    rw [show (s.step exchange _).1.publisher.messageDeque =
      s.publisher.messageDeque ++ [⟨0, routingKey, correlationId, data⟩] by
        simp [AmqpPublisherSystem.step, publishMessageRaw],
      batches_append (sameBatch_publishMessageRaw _ _ _ _), batches_singleton]
    simp [PublisherEvent.calls, AmqpMessage.content]
  | publishMessagesRaw queue =>
    have hq : queue ≠ [] := by simpa [PublisherEvent.calls] using hx
    refine ⟨[], [], ?_, by simp [AmqpPublisherSystem.step], List.nil_sublist _⟩
    rw [show (s.step exchange _).1.publisher.messageDeque =
      s.publisher.messageDeque ++ batchMessages (nextBatchNum s.publisher.batchNum) queue by
        simp [AmqpPublisherSystem.step, publishMessagesRaw],
      batches_append (hb.sameBatch_publishMessagesRaw queue),
      batches_batchMessages (nextBatchNum_ne_zero _) hq]
    simp [PublisherEvent.calls]
  | commitDone outcome =>
    by_cases hf : s.publisher.inFlight = 0
    · refine ⟨[], [], ?_, ?_, List.nil_sublist _⟩ <;>
        simp [AmqpPublisherSystem.step, hf, PublisherEvent.calls]
    · -- the queue's calls are those in flight, then the others
      have hcut := batches_eq_take_drop hb.boundary
      rcases outcome with _ | ⟨_ | _⟩
      · refine ⟨(batches (s.publisher.messageDeque.take s.publisher.inFlight)).map
            (List.map AmqpMessage.content),
          (s.publisher.messageDeque.take s.publisher.inFlight).map AmqpMessage.content,
          ?_, ?_, ?_⟩
        · simp [AmqpPublisherSystem.step, hf, PublisherEvent.calls, commitSucceeded,
            commitFinalized, hcut]
        · simp [AmqpPublisherSystem.step, hf, AmqpBroker.commit, h.uncommitted_eq]
        · rw [← List.map_flatten, flatten_batches]
      · refine ⟨[], [], ?_, ?_, List.nil_sublist _⟩ <;>
          simp [AmqpPublisherSystem.step, hf, PublisherEvent.calls, commitFinalized,
            AmqpBroker.rollback]
      · refine ⟨[], (s.publisher.messageDeque.take s.publisher.inFlight).map AmqpMessage.content,
          ?_, ?_, List.nil_sublist _⟩
        · simp [AmqpPublisherSystem.step, hf, PublisherEvent.calls, commitFinalized]
        · simp [AmqpPublisherSystem.step, hf, AmqpBroker.commit, h.uncommitted_eq]
  | _ =>
    refine ⟨[], [], ?_, ?_, List.nil_sublist _⟩ <;>
      simp [AmqpPublisherSystem.step, PublisherEvent.calls, channelReady, channelFailed, load,
        AmqpBroker.rollback]

/-- **Whole batches.** Along every run from a started publisher in which no call queues an empty
batch, the queue, cut into the calls that queued it, is the calls of the file and of the run with
the first few taken off, and the server has committed the messages of those, in order, among
what it committed during the run: a batch is never split between transactions. -/
theorem run_wholeBatches (exchange : String) (file committed : List (AmqpMessage M))
    (xs : List (PublisherEvent M)) (hxs : [] ∉ xs.flatMap PublisherEvent.calls) :
    ∃ A c, (batches file).map (List.map AmqpMessage.content) ++
          xs.flatMap PublisherEvent.calls =
        A ++ (batches (run exchange (start file committed) xs).publisher.messageDeque).map
          (List.map AmqpMessage.content) ∧
      (run exchange (start file committed) xs).broker.committed.map AmqpMessage.content =
        committed.map AmqpMessage.content ++ c ∧ A.flatten.Sublist c := by
  have hrule := Ledger.queue_foldl (fun s x => (s.step exchange x).1)
    (fun s => Inv s ∧ BatchInv s) (fun x => [] ∉ x.calls)
    (fun s => (batches s.publisher.messageDeque).map (List.map AmqpMessage.content))
    (fun s => s.broker.committed.map AmqpMessage.content) PublisherEvent.calls
    (fun A c => A.flatten.Sublist c)
    (fun _ x hs hx => ⟨hs.1.step exchange x, hs.2.step exchange hs.1 x hx⟩)
    (List.nil_sublist _) (fun h h' => by rw [List.flatten_append]; exact h.append h')
    (fun _ x hs hx => hs.2.step_batches exchange hs.1 x hx)
    xs ⟨Inv.start file committed, BatchInv.of_load file _⟩
    (fun x hx hnil => hxs (List.mem_flatMap.mpr ⟨x, hx, hnil⟩))
  simpa [run, load] using hrule

theorem run_wholeBatches_exampleEvents :
    [] ∉ exampleEvents.flatMap PublisherEvent.calls ∧
      ∃ A c, (batches ([] : List (AmqpMessage ℕ))).map (List.map AmqpMessage.content) ++
            exampleEvents.flatMap PublisherEvent.calls =
          A ++ (batches (run "" (start [] []) exampleEvents).publisher.messageDeque).map
            (List.map AmqpMessage.content) ∧
        (run "" (start [] []) exampleEvents).broker.committed.map AmqpMessage.content =
          ([] : List (AmqpMessage ℕ)).map AmqpMessage.content ++ c ∧ A.flatten.Sublist c :=
  ⟨by decide, run_wholeBatches "" [] [] exampleEvents (by decide)⟩

end AmqpPublisherSystem

end Eosio
