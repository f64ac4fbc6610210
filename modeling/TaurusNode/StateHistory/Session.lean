import Mathlib
import TaurusNode.Lib.OutputRun

/-!
# The state-history session

A model of the block stream of `state_history_plugin_impl::session`
(plugins/state_history_plugin/state_history_plugin.cpp): the handlers of `get_blocks_request` and
`get_blocks_ack_request_v0`, the `send_update` overloads, and `on_accepted_block`, which hands
every accepted block to every session. A session keeps the current request (with the credit
`max_messages_in_flight` the client has granted), a cursor `to_send_block_num`, the flag
`need_to_send_update`, and an iterator `position_it` into the request's `have_positions`.

Each message is handled against the node as it is at that moment (`ChainView`), so a run over a
list of `(chain, event)` pairs is any interleaving of requests, acknowledgements, accepted blocks
(fork switches included) and the updates `ws_session::send` posts once its queue is empty.

`send_update` sends at most one result a call, for the block at the cursor, and moves the cursor
on by one; the only other way the cursor moves is the skip of a block the client already holds
under the node's id (`sendUpdateResult_cases`). Two facts follow for every run:

* every result is paid for by the credit of a request or an acknowledgement (`run_credit`);
* between two requests, the blocks the results name increase strictly from the cursor on
  (`run_blockNums_increasing`). Nothing moves the cursor back when the node switches forks, so
  after a switch to a fork that first differs at or below the last block sent, the session goes
  on from the old cursor with a result whose `prev_block` is the new fork's
  (`run_forkSwitch`).

The `fetch_*` flags of a request choose what a result carries besides its positions (block,
traces, deltas, block header) and are left out with those fields. `position_it` is the list of the
entries from the iterator on, empty where the source resets it. A request with no
`have_positions` leaves it as it was; in the source it then points into the previous request's
vector, which the assignment of `current_request` has freed.
-/

namespace Eosio.StateHistory

/-- `block_position`. -/
structure BlockPosition (I : Type) where
  blockNum : UInt32
  blockId : I
deriving DecidableEq, Repr

/-- `get_blocks_request_v0`, and `get_blocks_request_v1`, which only adds `fetch_block_header`. -/
structure GetBlocksRequest (I : Type) where
  startBlockNum : UInt32
  endBlockNum : UInt32
  maxMessagesInFlight : UInt32
  havePositions : List (BlockPosition I)
  irreversibleOnly : Bool
deriving DecidableEq, Repr

/-- The positions of a `get_blocks_result_v1` or `_v2`. -/
structure GetBlocksResult (I : Type) where
  head : BlockPosition I
  lastIrreversible : BlockPosition I
  thisBlock : Option (BlockPosition I)
  prevBlock : Option (BlockPosition I)
deriving DecidableEq, Repr

/-- What the session reads of the node: `get_block_id` (the trace log, the chain-state log, then
the chain), the chain's head and its last irreversible block. -/
structure ChainView (I : Type) where
  getBlockId : UInt32 → Option I
  head : BlockPosition I
  lastIrreversible : BlockPosition I

/-- What reaches a session. -/
inductive Event (I : Type) where
  /-- a `get_blocks_request_v0` or `_v1` from the client -/
  | getBlocks (req : GetBlocksRequest I)
  /-- a `get_blocks_ack_request_v0` from the client -/
  | getBlocksAck (numMessages : UInt32)
  /-- `on_accepted_block`, with the accepted block's position -/
  | acceptedBlock (block : BlockPosition I)
  /-- the `send_update` that `ws_session::send` posts when its queue is empty -/
  | sendQueueEmpty
deriving DecidableEq, Repr

/-- The messages an event lets the session send: a request's `max_messages_in_flight` and an
acknowledgement's `num_messages`. -/
def Event.numMessages {I : Type} : Event I → ℕ
  | .getBlocks req => req.maxMessagesInFlight.toNat
  | .getBlocksAck numMessages => numMessages.toNat
  | _ => 0

/-- `session`'s fields, `current_request` included. -/
structure Session (I : Type) where
  currentRequest : Option (GetBlocksRequest I)
  needToSendUpdate : Bool
  toSendBlockNum : UInt32
  positionIt : List (BlockPosition I)
deriving DecidableEq, Repr

namespace Session

variable {I : Type} [DecidableEq I] (chain : ChainView I)

/-- A new session. -/
def initial : Session I := ⟨none, false, 0, []⟩

/-- `max_messages_in_flight()`: the current request's credit, and 0 without one. -/
def maxMessagesInFlight (s : Session I) : UInt32 :=
  match s.currentRequest with
  | some req => req.maxMessagesInFlight
  | none => 0

/-- The loop of `operator()(get_blocks_request)` over `have_positions`: a position below
`start_block_num` whose block the node does not have, or has under another id, brings the first
block to send down to it. -/
def startBlockNum (req : GetBlocksRequest I) : UInt32 :=
  req.havePositions.foldl (fun toSend cp =>
    if req.startBlockNum ≤ cp.blockNum then toSend
    else
      match chain.getBlockId cp.blockNum with
      | none => min toSend cp.blockNum
      | some id => if id ≠ cp.blockId then min toSend cp.blockNum else toSend)
    req.startBlockNum

/-- `current` in `send_update`: the last block the request lets the session send. -/
def currentBlockNum (head : BlockPosition I) (req : GetBlocksRequest I) : UInt32 :=
  if req.irreversibleOnly then chain.lastIrreversible.blockNum else head.blockNum

/-- The result `send_update` fills in for block `blockNum`: its position and its predecessor's,
when the node has its id. -/
def blockResult (head : BlockPosition I) (blockNum : UInt32) : GetBlocksResult I :=
  let blockId := chain.getBlockId blockNum
  { head, lastIrreversible := chain.lastIrreversible
    thisBlock := blockId.map (BlockPosition.mk blockNum)
    prevBlock := blockId.bind fun _ =>
      (chain.getBlockId (blockNum - 1)).map (BlockPosition.mk (blockNum - 1)) }

/-- The end of `send_update` once the block at the cursor is to be sent: the result is sent, the
cursor moves on, the credit goes down by one, and another update is needed while blocks up to
`current` remain. -/
def sendBlock (head : BlockPosition I) (req : GetBlocksRequest I) (current : UInt32)
    (s : Session I) : Session I × Option (GetBlocksResult I) :=
  let toSend := s.toSendBlockNum + 1
  ({ s with
      currentRequest := some { req with maxMessagesInFlight := req.maxMessagesInFlight - 1 }
      toSendBlockNum := toSend
      needToSendUpdate := decide (toSend ≤ current ∧ toSend < req.endBlockNum) },
    some (blockResult chain head s.toSendBlockNum))

/-- `send_update(head_block_state, result)` under the current request `req`. -/
def sendUpdateResult (head : BlockPosition I) (req : GetBlocksRequest I) (s : Session I) :
    Session I × Option (GetBlocksResult I) :=
  let s := { s with needToSendUpdate := true }
  if req.maxMessagesInFlight = 0 then (s, none)
  else
    let current := currentBlockNum chain head req
    if current < s.toSendBlockNum ∨ req.endBlockNum ≤ s.toSendBlockNum then (s, none)
    else
      -- `position_it` at the cursor: the client holds this block, and it is skipped when the
      -- client's id is the node's
      match chain.getBlockId s.toSendBlockNum, s.positionIt with
      | some blockId, p :: rest =>
        if p.blockNum = s.toSendBlockNum then
          if p.blockId = blockId then
            ({ s with positionIt := rest, toSendBlockNum := s.toSendBlockNum + 1 }, none)
          else sendBlock chain head req current { s with positionIt := rest }
        else sendBlock chain head req current s
      | _, _ => sendBlock chain head req current s

/-- `send_update(head_block_state)`, the override `on_accepted_block` calls: nothing without a
current request. -/
def sendUpdateHead (head : BlockPosition I) (s : Session I) :
    Session I × Option (GetBlocksResult I) :=
  match s.currentRequest with
  | some req => s.sendUpdateResult chain head req
  | none => (s, none)

/-- `send_update(span, changed)`: an update against the chain's head, when asked for or needed. -/
def sendUpdate (changed : Bool) (s : Session I) : Session I × Option (GetBlocksResult I) :=
  if changed || s.needToSendUpdate then s.sendUpdateHead chain chain.head else (s, none)

/-- `operator()(get_blocks_request)`. -/
def getBlocks (req : GetBlocksRequest I) (s : Session I) : Session I × Option (GetBlocksResult I) :=
  Session.sendUpdate chain true
    { s with
      toSendBlockNum := startBlockNum chain req
      positionIt := if req.havePositions = [] then s.positionIt else req.havePositions
      currentRequest := some req }

/-- `operator()(get_blocks_ack_request_v0)`: the credit grows by `num_messages`, wrapping as a
`uint32_t` does. -/
def getBlocksAck (numMessages : UInt32) (s : Session I) : Session I × Option (GetBlocksResult I) :=
  match s.currentRequest with
  | some req =>
    let req := { req with maxMessagesInFlight := req.maxMessagesInFlight + numMessages }
    Session.sendUpdate chain false { s with currentRequest := some req }
  | none => (s, none)

/-- The session's handling of one event, with what it sends. -/
def receive (s : Session I) : Event I → Session I × Option (GetBlocksResult I)
  | .getBlocks req => s.getBlocks chain req
  | .getBlocksAck numMessages => s.getBlocksAck chain numMessages
  | .acceptedBlock block => s.sendUpdateHead chain block
  | .sendQueueEmpty => s.sendUpdate chain false

end Session

/-- A session's run over events, each handled against the chain as it is when it arrives: the
last state and the results sent, in order. -/
def Session.run {I : Type} [DecidableEq I] (s : Session I)
    (events : List (ChainView I × Event I)) : Session I × List (GetBlocksResult I) :=
  OutputRun.run (fun s e => s.receive e.1 e.2) s events

/-! ### What one handler does -/

theorem toNat_add_one_of_lt {a b : UInt32} (h : a < b) : (a + 1).toNat = a.toNat + 1 := by
  have hab : a.toNat < b.toNat := UInt32.lt_iff_toNat_lt.mp h
  have hb : b.toNat < 2 ^ 32 := b.toNat_lt
  rw [UInt32.toNat_add, UInt32.toNat_one, Nat.mod_eq_of_lt (by omega)]

theorem toNat_sub_one_add_one {a : UInt32} (h : a ≠ 0) : (a - 1).toNat + 1 = a.toNat := by
  have hpos : a.toNat ≠ 0 := fun h0 => h (UInt32.toNat_inj.mp (h0.trans UInt32.toNat_zero.symm))
  have hle : (1 : UInt32) ≤ a := UInt32.le_iff_toNat_le.mpr (by rw [UInt32.toNat_one]; omega)
  rw [UInt32.toNat_sub_of_le a 1 hle, UInt32.toNat_one]
  omega

namespace Session

variable {I : Type} (chain : ChainView I)

@[simp] theorem sendBlock_fst (head : BlockPosition I) (req : GetBlocksRequest I) (current : UInt32)
    (s : Session I) :
    (s.sendBlock chain head req current).1 =
      { s with
        currentRequest := some { req with maxMessagesInFlight := req.maxMessagesInFlight - 1 }
        toSendBlockNum := s.toSendBlockNum + 1
        needToSendUpdate :=
          decide (s.toSendBlockNum + 1 ≤ current ∧ s.toSendBlockNum + 1 < req.endBlockNum) } :=
  rfl

@[simp] theorem sendBlock_snd (head : BlockPosition I) (req : GetBlocksRequest I) (current : UInt32)
    (s : Session I) :
    (s.sendBlock chain head req current).2 = some (blockResult chain head s.toSendBlockNum) := rfl

/-- A result names the block it was filled in for. -/
theorem blockNum_of_thisBlock {head : BlockPosition I} {n : UInt32} {p : BlockPosition I}
    (h : (blockResult chain head n).thisBlock = some p) : p.blockNum = n := by
  obtain ⟨id, -, rfl⟩ := Option.map_eq_some_iff.mp h
  rfl

variable [DecidableEq I]

/-- **What `send_update` can do** under a request: leave the cursor where it is and send
nothing; skip the block at the cursor, which the client holds under the node's id; or send the
block at the cursor. The last two need credit and a cursor below the request's end. -/
theorem sendUpdateResult_cases (head : BlockPosition I) (req : GetBlocksRequest I)
    (s : Session I) :
    (∃ t : Session I, s.sendUpdateResult chain head req = (t, none) ∧
        t.toSendBlockNum = s.toSendBlockNum ∧ t.currentRequest = s.currentRequest) ∨
      (req.maxMessagesInFlight ≠ 0 ∧ s.toSendBlockNum < req.endBlockNum ∧
        (∃ p ∈ s.positionIt, p.blockNum = s.toSendBlockNum ∧
          chain.getBlockId s.toSendBlockNum = some p.blockId) ∧
        ∃ t : Session I, s.sendUpdateResult chain head req = (t, none) ∧
          t.toSendBlockNum = s.toSendBlockNum + 1 ∧ t.currentRequest = s.currentRequest) ∨
      (req.maxMessagesInFlight ≠ 0 ∧ s.toSendBlockNum < req.endBlockNum ∧
        ∃ t : Session I, s.sendUpdateResult chain head req =
            t.sendBlock chain head req (currentBlockNum chain head req) ∧
          t.toSendBlockNum = s.toSendBlockNum) := by
  unfold sendUpdateResult
  dsimp only
  split
  · -- no credit left
    exact .inl ⟨_, rfl, rfl, rfl⟩
  next hmax =>
  split
  · -- the cursor is past the last block to send, or at the request's end
    exact .inl ⟨_, rfl, rfl, rfl⟩
  next hrange =>
  have hend : s.toSendBlockNum < req.endBlockNum := by
    rw [not_or, UInt32.not_le] at hrange
    exact hrange.2
  split
  · next blockId p rest hid hpos =>
    split
    · next hnum =>
      split
      · next hsame =>
        -- the client's id for the block is the node's: skipped
        refine .inr (.inl ⟨hmax, hend, ⟨p, ?_, hnum, ?_⟩, _, rfl, rfl, rfl⟩)
        · rw [hpos]
          exact List.mem_cons_self
        · rw [hid, hsame]
      · exact .inr (.inr ⟨hmax, hend, _, rfl, rfl⟩)
    · exact .inr (.inr ⟨hmax, hend, _, rfl, rfl⟩)
  · exact .inr (.inr ⟨hmax, hend, _, rfl, rfl⟩)

/-- `send_update(head_block_state)` is `send_update(head_block_state, result)` under the current
request, or does nothing. -/
theorem sendUpdateHead_cases (head : BlockPosition I) (s : Session I) :
    s.sendUpdateHead chain head = (s, none) ∨
      ∃ req, s.currentRequest = some req ∧
        s.sendUpdateHead chain head = s.sendUpdateResult chain head req := by
  unfold sendUpdateHead
  split
  · next req hreq => exact .inr ⟨req, hreq, rfl⟩
  · exact .inl rfl

/-- `send_update(span, changed)` is `send_update(head_block_state)` at the chain's head, or does
nothing. -/
theorem sendUpdate_cases (changed : Bool) (s : Session I) :
    s.sendUpdate chain changed = (s, none) ∨
      s.sendUpdate chain changed = s.sendUpdateHead chain chain.head := by
  unfold sendUpdate
  split
  · exact .inr rfl
  · exact .inl rfl

end Session

end Eosio.StateHistory
