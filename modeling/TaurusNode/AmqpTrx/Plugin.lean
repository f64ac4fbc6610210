import Mathlib

/-!
# Acknowledging AMQP transactions

A model of the tracking in `amqp_trx_plugin_impl` (plugins/amqp_trx_plugin/amqp_trx_plugin.cpp):
each delivery is pushed to the FIFO processing queue; the producer executes the transaction at
the front of the queue and calls its `next` callback once, with an exception or with the trace of
the pending block it executed in; with `ack_mode::in_block` a failure is acknowledged at once and
a success is recorded as the block's `tracked_delivery_tag`, which `on_accepted_block`
acknowledges with `multiple = true`, so for every delivery up to it. `on_block_start` of a block
number resets the block's entry of `tracked_blocks`; while the producer is paused it instead drops
the entries of the other blocks and the queue and rejects, with requeue, up to the largest tag
dropped.

The broker and the producer are modelled beside the plugin (`World`): which deliveries are
outstanding (neither acknowledged nor rejected), which transactions are in the pending block of a
block number, which failed and which are in a block for which `on_accepted_block` was called. An
aborted block's transactions leave the pending block; the producer may re-apply one to a later
block without calling `next` again (`reapplied`), or drop it.

The paused branch of `on_block_start` erases from `tracked_blocks` inside the range-for over it,
which invalidates the loop's iterator; the model gives it the effect the loop is written for.
Block UUIDs and the trace messages published for them are left out.

A block number restarted after an abort resets its tracked tag, but the acknowledgement of the
restarted block covers every earlier delivery: a transaction that succeeded in the aborted block
and was then dropped is acknowledged (`run_abortRestart`).
-/

namespace Eosio.AmqpTrx

/-- `ack_mode`. -/
inductive AckMode
  | received
  | executed
  | inBlock
deriving DecidableEq, Repr

/-- What the producer hands to a transaction's `next` callback. -/
inductive TrxResult
  /-- an exception -/
  | exception
  /-- the trace of the pending block the transaction executed in; `except` when it failed there -/
  | trace (blockNum : UInt32) (except : Bool)
deriving DecidableEq, Repr

/-- The calls of the plugin on the AMQP channel. -/
inductive ChannelCall
  | ack (deliveryTag : UInt64) (multiple : Bool)
  | reject (deliveryTag : UInt64) (multiple requeue : Bool)
deriving DecidableEq, Repr

/-- What happens to the plugin, and what the producer does without telling it. -/
inductive Event
  /-- `consume_message`: a delivery, pushed to the processing queue -/
  | deliver (deliveryTag : UInt64)
  /-- `on_block_start(bn)`, with whether the producer is paused -/
  | blockStart (blockNum : UInt32) (paused : Bool)
  /-- `on_block_abort(bn)` -/
  | blockAbort (blockNum : UInt32)
  /-- `on_accepted_block` of block `bn` -/
  | acceptedBlock (blockNum : UInt32)
  /-- the producer executed the transaction at the front of the queue and called its `next` -/
  | next (result : TrxResult)
  /-- the producer re-applied a transaction of an aborted block to block `bn`, with no callback -/
  | reapplied (deliveryTag : UInt64) (blockNum : UInt32)
deriving DecidableEq, Repr

/-- The plugin's state: its configuration, `tracked_blocks` (block number and
`tracked_delivery_tag`, in key order) and the delivery tags in the processing queue. -/
structure Plugin where
  acked : AckMode
  allowSpeculativeExecution : Bool
  trackedBlocks : List (UInt32 × UInt64)
  queue : List UInt64
deriving DecidableEq, Repr

namespace Plugin

variable (p : Plugin)

/-- `tracked_blocks[bn] = block_tracking{}`. -/
def resetTracking (blockNum : UInt32) : List (UInt32 × UInt64) :=
  (blockNum, 0) :: p.trackedBlocks.filter (·.1 ≠ blockNum)

/-- `handle_message`'s `next` callback for the transaction of `deliveryTag`; `none` where it
throws because the trace's block is not tracked. -/
def onNext (deliveryTag : UInt64) : TrxResult → Option (Plugin × List ChannelCall)
  | .exception =>
    -- ack immediately on failure
    if p.acked = .executed ∨ p.acked = .inBlock then some (p, [.ack deliveryTag false])
    else some (p, [])
  | .trace blockNum except =>
    match p.trackedBlocks.lookup blockNum with
    | none => none
    | some _ =>
      if except then
        if p.acked = .executed ∨ p.acked = .inBlock then some (p, [.ack deliveryTag false])
        else some (p, [])
      else if p.acked = .executed then some (p, [.ack deliveryTag false])
      else if p.acked = .inBlock then
        some ({ p with trackedBlocks := p.trackedBlocks.map fun e =>
            if e.1 = blockNum then (blockNum, deliveryTag) else e }, [])
      else some (p, [])

/-- `on_block_start(bn)`. -/
def onBlockStart (blockNum : UInt32) (paused : Bool) : Plugin × List ChannelCall :=
  if !paused || p.allowSpeculativeExecution then
    ({ p with trackedBlocks := p.resetTracking blockNum }, [])
  else
    -- the largest tag of the other blocks' entries and of the queue, all dropped
    let others := p.trackedBlocks.filter (·.1 ≠ blockNum)
    let deliveryTag := (others.map (·.2) ++ p.queue).foldl max 0
    ({ p with trackedBlocks := p.trackedBlocks.filter (·.1 = blockNum), queue := [] },
      if deliveryTag ≠ 0 then [.reject deliveryTag true true] else [])

/-- `on_accepted_block`: the block's tracked tag is acknowledged with `multiple`, and its entry
erased. -/
def onAcceptedBlock (blockNum : UInt32) : Plugin × List ChannelCall :=
  match p.trackedBlocks.lookup blockNum with
  | some trackedDeliveryTag =>
    ({ p with trackedBlocks := p.trackedBlocks.filter (·.1 ≠ blockNum) },
      if p.acked = .inBlock ∧ trackedDeliveryTag ≠ 0 then [.ack trackedDeliveryTag true] else [])
  | none => (p, [])

/-- One event; the `next` callback is that of the transaction at the front of the queue, which
leaves the queue, and a callback that throws changes nothing. -/
def step : Event → Plugin × List ChannelCall
  | .deliver deliveryTag =>
    ({ p with queue := p.queue ++ [deliveryTag] },
      if p.acked = .received then [.ack deliveryTag false] else [])
  | .blockStart blockNum paused => p.onBlockStart blockNum paused
  | .blockAbort _ => (p, [])
  | .acceptedBlock blockNum => p.onAcceptedBlock blockNum
  | .next result =>
    match p.queue with
    | deliveryTag :: rest =>
      ((({ p with queue := rest } : Plugin).onNext deliveryTag result).getD
        ({ p with queue := rest }, []))
    | [] => (p, [])
  | .reapplied _ _ => (p, [])

end Plugin

/-- The broker and the producer: the outstanding deliveries, the transactions in the pending block
of each block number, those that failed and those in a block for which `on_accepted_block` was
called. -/
structure World where
  outstanding : List UInt64
  pending : List (UInt64 × UInt32)
  failed : List UInt64
  accepted : List UInt64
deriving DecidableEq, Repr

namespace World

variable (w : World)

/-- The deliveries a call settles: with `multiple`, every outstanding one up to its tag. -/
def settles (deliveryTag : UInt64) (multiple : Bool) : List UInt64 :=
  if multiple then w.outstanding.filter (· ≤ deliveryTag)
  else w.outstanding.filter (· = deliveryTag)

/-- A channel call: the deliveries it settles leave the outstanding ones; an acknowledgement
returns those of them that neither failed nor are in an accepted block. -/
def channel (c : ChannelCall) : World × List UInt64 :=
  match c with
  | .ack deliveryTag multiple =>
    let settled := w.settles deliveryTag multiple
    ({ w with outstanding := w.outstanding.filter (· ∉ settled) },
      settled.filter fun t => t ∉ w.failed ∧ t ∉ w.accepted)
  | .reject deliveryTag multiple _ =>
    let settled := w.settles deliveryTag multiple
    ({ w with outstanding := w.outstanding.filter (· ∉ settled) }, [])

/-- The broker's and the producer's side of an event; `front` is the delivery whose `next` is
called. -/
def step (front : Option UInt64) : Event → World
  | .deliver deliveryTag => { w with outstanding := w.outstanding ++ [deliveryTag] }
  | .blockAbort blockNum => { w with pending := w.pending.filter (·.2 ≠ blockNum) }
  | .acceptedBlock blockNum =>
    { w with
      pending := w.pending.filter (·.2 ≠ blockNum)
      accepted := w.accepted ++ (w.pending.filter (·.2 = blockNum)).map (·.1) }
  | .next (.trace blockNum false) =>
    match front with
    | some deliveryTag => { w with pending := w.pending ++ [(deliveryTag, blockNum)] }
    | none => w
  | .next _ =>
    match front with
    | some deliveryTag => { w with failed := w.failed ++ [deliveryTag] }
    | none => w
  | .reapplied deliveryTag blockNum => { w with pending := w.pending ++ [(deliveryTag, blockNum)] }
  | .blockStart _ _ => w

end World

/-- The plugin and the world together, with the deliveries acknowledged so far that had neither
failed nor been accepted in a block. -/
structure System where
  plugin : Plugin
  world : World
  wrongAcks : List UInt64
deriving DecidableEq, Repr

/-- One event: the world moves first (an accepted block's transactions are accepted before its
acknowledgement), then the plugin's calls reach the broker in order. -/
def System.step (s : System) (e : Event) : System :=
  let world := s.world.step s.plugin.queue.head? e
  let (plugin, calls) := s.plugin.step e
  let (world, wrong) := calls.foldl (fun (acc : World × List UInt64) c =>
    let r := acc.1.channel c
    (r.1, acc.2 ++ r.2)) (world, [])
  ⟨plugin, world, s.wrongAcks ++ wrong⟩

/-- A run from a plugin with nothing tracked or queued and a broker with nothing delivered. -/
def System.run (acked : AckMode) (events : List Event) : System :=
  events.foldl System.step ⟨⟨acked, false, [], []⟩, ⟨[], [], [], []⟩, []⟩

/-- Block 1 is started and delivery 5 succeeds in it; block 1 is aborted and transaction 5
dropped; block 1 is started again and delivery 7 succeeds in it; block 1 is accepted. -/
def abortRestart : List Event :=
  [.blockStart 1 false, .deliver 5, .next (.trace 1 false), .blockAbort 1,
    .blockStart 1 false, .deliver 7, .next (.trace 1 false), .acceptedBlock 1]

/-- **An acknowledgement covers a dropped transaction.** The acknowledgement of the restarted block
1, `ack(7, multiple)`, also settles delivery 5, whose transaction neither failed nor is in an
accepted block. -/
theorem run_abortRestart :
    (System.run .inBlock abortRestart).wrongAcks = [5] ∧
      (System.run .inBlock abortRestart).world.accepted = [7] := by
  decide

end Eosio.AmqpTrx
