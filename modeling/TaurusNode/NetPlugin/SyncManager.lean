import Mathlib
import TaurusNode.Lib.TransitionTable

/-!
# The sync manager of the net plugin

A model of `eosio::p2p::sync_manager` and its `state_machine`
(plugins/net_plugin/include/eosio/net_plugin/sync_manager.hpp). The manager keeps the last
irreversible block it knows of, the last block it requested, the next block it expects, and the
connection it syncs from; the state machine, a `boost::sml` table over the states `in_sync`,
`lib_catchup` and `head_catchup`, calls it on the events `lib_catchup`, `head_catchup`,
`recv_block`, `close_connection` and `reassign_fetch`.

The guards of the table call the manager, and some of them write it: `set_new_sync_source`, on
failing to find a source, clears the source and resets the known and requested block numbers.
The `cache` guards keep the result of their last call in a function-static, which the `_t`
guard of the same function returns without calling it. The table is run by
`TransitionTable.fire`; a guard's writes are kept whether or not its row fires, and the statics
are part of the machine's data (`GuardCache`).

What the manager reads of the node and of its peers (the chain's block numbers, the connections
and what each reports) is the environment of the event, `Env`, which may be anything: what the
manager writes to a connection (a fork head reset by `continue_head_catchup`) is not kept.
Outputs are the requests and handshakes the manager posts.

* every request the manager posts is to a source, for a range that starts at or before its end,
  ends at the known last irreversible block at the latest, and spans at most `sync_req_span`
  blocks (`processEvent_requests`);
* a `close_connection` or a `reassign_fetch` of the source, when no other source can be found,
  leaves the machine in `lib_catchup` with no source: `set_new_sync_source` clears it, and the
  fallback row, which asks `is_source` again, then no longer matches
  (`closeConnection_leaves_libCatchup_without_source`).
-/

namespace Eosio.P2p

open TransitionTable

/-- What a connection reports to the sync manager. -/
structure Peer (BlockId : Type) where
  /-- `current()`: connected, and handshaken. A closing connection is not current. -/
  current : Bool
  /-- `is_transactions_only_connection()`. -/
  transactionsOnly : Bool
  /-- `get_last_handshake().last_irreversible_block_num`. -/
  lastIrreversibleBlockNum : UInt32
  /-- `get_fork_head_num()`. -/
  forkHeadNum : UInt32
  /-- `get_fork_head()`; `none` is the null id. -/
  forkHead : Option BlockId

/-- What the sync manager reads of the node and of its peers while it handles one event. -/
structure Env (Conn BlockId : Type) where
  /-- The block numbers of `get_chain_info()`: the last irreversible block, the head block and
  the head of the fork database. -/
  libNum : UInt32
  headBlkNum : UInt32
  forkHeadBlockNum : UInt32
  /-- `get_connections()`, in the order of the set. -/
  connections : List Conn
  peer : Conn → Peer BlockId

/-- What the manager posts. -/
inductive Output (Conn : Type)
  /-- `c->request_sync_blocks(start, end)`, posted to `c`, the sync source when it was posted. -/
  | requestSyncBlocks (c : Option Conn) (start endNum : UInt32)
  /-- `send_handshakes()`. -/
  | sendHandshakes
deriving DecidableEq, Repr

/-- `sync_manager`; its `sync_req_span`, fixed at construction, is a parameter of the functions
that read it. -/
structure SyncManager (Conn : Type) where
  syncKnownLibNum : UInt32
  syncLastRequestedNum : UInt32
  syncNextExpectedNum : UInt32
  syncSource : Option Conn
deriving DecidableEq, Repr

/-- A range from `start` that ends at or before the last block of `span` blocks from it spans at
most `span` blocks, in 32-bit arithmetic. -/
theorem sub_lt_of_le_add_sub_one {start e span : UInt32} (hspan : 0 < span) (hle : start ≤ e)
    (he : e ≤ start + span - 1) : e - start < span := by
  rw [UInt32.lt_iff_toNat_lt] at hspan ⊢
  rw [UInt32.le_iff_toNat_le] at hle he
  rw [UInt32.toNat_sub_of_le _ _ hle]
  rw [UInt32.toNat_sub, UInt32.toNat_add] at he
  have := start.toNat_lt
  have := span.toNat_lt
  have := e.toNat_lt
  simp only [UInt32.toNat_one] at he
  omega

namespace SyncManager

variable {Conn BlockId : Type} [DecidableEq Conn] [DecidableEq BlockId]

/-- `sync_manager(span, ptr)`. -/
def initial : SyncManager Conn :=
  ⟨0, 0, 1, none⟩

variable (env : Env Conn BlockId) (m : SyncManager Conn)

/-- `is_sync_required(target)`. -/
def isSyncRequired (target : UInt32) : Bool :=
  m.syncLastRequestedNum < m.syncKnownLibNum || env.forkHeadBlockNum < m.syncLastRequestedNum ||
    target > env.libNum

/-- `is_sync_source(c)`. -/
def isSyncSource (c : Conn) : Bool :=
  match m.syncSource with
  | none => false
  | some s => s == c

/-- `sync_reset_lib_num(lib)`. -/
def syncResetLibNum (lib : UInt32) : SyncManager Conn :=
  if lib > m.syncKnownLibNum then { m with syncKnownLibNum := lib } else m

/-- `sync_update_expected(id, blk_num, blk_applied)`. -/
def syncUpdateExpected (blkNum : UInt32) (blkApplied : Bool) : SyncManager Conn :=
  if blkNum ≤ m.syncLastRequestedNum then
    if blkNum != m.syncNextExpectedNum && !blkApplied then m
    else { m with syncNextExpectedNum := blkNum + 1 }
  else m

/-- The end of the range `continue_sync` requests: the last block of `sync_req_span` blocks from
the next expected one, cut at the known irreversible block. -/
def requestEnd (syncReqSpan : UInt32) : UInt32 :=
  let endNum := m.syncNextExpectedNum + syncReqSpan - 1
  if endNum > m.syncKnownLibNum then m.syncKnownLibNum else endNum

/-- `continue_sync()`: the next range, up to `requestEnd`, is requested from the source; when
there is none to request, handshakes go out instead. -/
def continueSync (syncReqSpan : UInt32) : List (Output Conn) × SyncManager Conn :=
  if m.syncLastRequestedNum != m.syncKnownLibNum then
    let start := m.syncNextExpectedNum
    let endNum := m.requestEnd syncReqSpan
    if endNum ≥ start then
      ([.requestSyncBlocks m.syncSource start endNum], { m with syncLastRequestedNum := endNum })
    else ([.sendHandshakes], m)
  else ([.sendHandshakes], m)

/-- `begin_sync(c, target)`. -/
def beginSync (syncReqSpan : UInt32) : List (Output Conn) × SyncManager Conn :=
  m.continueSync syncReqSpan

/-- `reset_last_requested_num()`. -/
def resetLastRequestedNum : SyncManager Conn :=
  { m with syncLastRequestedNum := 0 }

/-- `reset_sync_source()`. -/
def resetSyncSource : SyncManager Conn :=
  { m with syncSource := none }

/-- `closing_sync_source()`. -/
def closingSyncSource : SyncManager Conn :=
  { m with syncNextExpectedNum := env.headBlkNum + 1, syncLastRequestedNum := 0 }

/-- `sync_in_progress()`. -/
def syncInProgress : Bool :=
  env.forkHeadBlockNum < m.syncLastRequestedNum &&
    match m.syncSource with
    | some s => (env.peer s).current
    | none => false

/-- The test of the scan of `set_new_sync_source`: a connection that serves blocks, is current
and has handshaken an irreversible block at least the known one. -/
def canSync (c : Conn) : Bool :=
  !(env.peer c).transactionsOnly && (env.peer c).current &&
    (env.peer c).lastIrreversibleBlockNum ≥ m.syncKnownLibNum

/-- The scan of `set_new_sync_source` over two or more connections: once round the ring from the
connection after the source (from the first when there is none, or the source is gone, which
clears it), the first that `canSync`; the source as it stands when there is none. -/
def scanConnections : SyncManager Conn :=
  let conns := env.connections
  let (start, m) :=
    match m.syncSource with
    | none => (0, m)
    | some s =>
      match conns.idxOf? s with
      | none => (0, { m with syncSource := none })
      | some i => ((i + 1) % conns.length, m)
  match (conns.rotate start).find? (m.canSync env) with
  | some c => { m with syncSource := some c }
  | none => m

/-- The choice of `set_new_sync_source` with no current hint. -/
def chooseSource : SyncManager Conn :=
  match env.connections with
  | [] => { m with syncSource := none }
  | [c] => if m.syncSource.isNone then { m with syncSource := some c } else m
  | _ :: _ :: _ => m.scanConnections env

/-- The test that ends `set_new_sync_source`: the source is there, current and serves blocks. -/
def hasSource : Bool :=
  match m.syncSource with
  | some s => (env.peer s).current && !(env.peer s).transactionsOnly
  | none => false

/-- The source `set_new_sync_source` takes, before it checks it: a current hint, or the choice
among the connections. -/
def pickSource (syncHint : Option Conn) : SyncManager Conn :=
  match syncHint with
  | some h => if (env.peer h).current then { m with syncSource := some h } else m.chooseSource env
  | none => m.chooseSource env

/-- `set_new_sync_source(sync_hint)`: if the source it takes is not fit to sync from, the known
irreversible block drops to ours, nothing counts as requested, and the source is cleared.
Whether a source was found. -/
def setNewSyncSource (syncHint : Option Conn) : Bool × SyncManager Conn :=
  let m := m.pickSource env syncHint
  if m.hasSource env then (true, m)
  else (false, { m with syncKnownLibNum := env.libNum, syncLastRequestedNum := 0, syncSource := none })

/-- `block_ge_lib(blk_num)`. -/
def blockGeLib (blkNum : UInt32) : Bool :=
  blkNum ≥ m.syncKnownLibNum

/-- `block_ge_last_requested(blk_num)`. -/
def blockGeLastRequested (blkNum : UInt32) : Bool :=
  blkNum ≥ m.syncLastRequestedNum

/-- `continue_head_catchup(blk_id, blk_num)`: some block connection has a fork head that is
neither behind the block nor the block itself. The fork heads it resets are not kept. -/
def continueHeadCatchup (blkId : BlockId) (blkNum : UInt32) : Bool :=
  (env.connections.filter fun c => !(env.peer c).transactionsOnly).any fun c =>
    match (env.peer c).forkHead with
    | none => false
    | some forkHeadId => !((env.peer c).forkHeadNum < blkNum || forkHeadId == blkId)

/-- `set_highest_lib()`: the highest irreversible block a current block connection has
handshaken, `0` if none. -/
def setHighestLib : SyncManager Conn :=
  let highestLibNum := (env.connections.filter fun c => !(env.peer c).transactionsOnly).foldl
    (fun highest c =>
      if (env.peer c).current && (env.peer c).lastIrreversibleBlockNum > highest then
        (env.peer c).lastIrreversibleBlockNum
      else highest) 0
  { m with syncKnownLibNum := highestLibNum }

/-- `update_next_expected()`. -/
def updateNextExpected : SyncManager Conn :=
  { m with syncNextExpectedNum := max (env.libNum + 1) m.syncNextExpectedNum }

/-! ### What `continue_sync` requests -/

section Lemmas

variable {env : Env Conn BlockId} {m : SyncManager Conn} {syncReqSpan : UInt32}

omit [DecidableEq Conn] in
theorem requestEnd_le_syncKnownLibNum : m.requestEnd syncReqSpan ≤ m.syncKnownLibNum := by
  unfold requestEnd
  dsimp only
  split
  · exact UInt32.le_refl _
  · next hgt => exact UInt32.not_lt.mp hgt

omit [DecidableEq Conn] in
theorem requestEnd_le_add_sub_one :
    m.requestEnd syncReqSpan ≤ m.syncNextExpectedNum + syncReqSpan - 1 := by
  unfold requestEnd
  dsimp only
  split
  · next hgt => exact UInt32.le_of_lt hgt
  · exact UInt32.le_refl _

omit [DecidableEq Conn] in
/-- **A request of `continue_sync`** goes to the source, for a range that ends at the known
irreversible block at the latest, and spans at most `sync_req_span` blocks. -/
theorem continueSync_request {c : Option Conn} {start endNum : UInt32}
    (h : .requestSyncBlocks c start endNum ∈ (m.continueSync syncReqSpan).1) :
    c = m.syncSource ∧ start ≤ endNum ∧ endNum ≤ m.syncKnownLibNum ∧
      (0 < syncReqSpan → endNum - start < syncReqSpan) := by
  unfold continueSync at h
  split at h
  · dsimp only at h
    split at h
    · next hge =>
      simp only [List.mem_singleton, Output.requestSyncBlocks.injEq] at h
      obtain ⟨rfl, rfl, rfl⟩ := h
      exact ⟨rfl, hge, requestEnd_le_syncKnownLibNum,
        fun hspan => sub_lt_of_le_add_sub_one hspan hge requestEnd_le_add_sub_one⟩
    · simp at h
  · simp at h

omit [DecidableEq Conn] in
theorem continueSync_syncKnownLibNum :
    (m.continueSync syncReqSpan).2.syncKnownLibNum = m.syncKnownLibNum := by
  unfold continueSync
  split
  · dsimp only
    split <;> rfl
  · rfl

omit [DecidableEq BlockId] in
/-- A source was found only if it is there. -/
theorem setNewSyncSource_found {syncHint : Option Conn} {m' : SyncManager Conn}
    (h : m.setNewSyncSource env syncHint = (true, m')) : m'.syncSource.isSome := by
  unfold setNewSyncSource at h
  dsimp only at h
  split at h
  · next hsrc =>
    cases h
    unfold hasSource at hsrc
    split at hsrc
    · next s hs => rw [hs]; rfl
    · cases hsrc
  · cases h

end Lemmas

end SyncManager

/-- The states of the table; `"error"_s`, entered on an exception, is not modelled, since nothing
modelled throws. -/
inductive SyncState
  | inSync
  | libCatchup
  | headCatchup
deriving DecidableEq, Repr

/-- The functions whose `cache` guards keep their last result. -/
inductive CacheCell
  | verifySource
  | verifySourceCc
  | verifySourceRf
  | syncRequired
  | syncInProgress
deriving DecidableEq, Repr

/-- The function-statics of the `cache` guards, one for each function: zero, `false`, at
start. -/
structure GuardCache where
  verifySource : Bool
  verifySourceCc : Bool
  verifySourceRf : Bool
  syncRequired : Bool
  syncInProgress : Bool
deriving DecidableEq, Repr

namespace GuardCache

/-- The statics at start. -/
def initial : GuardCache :=
  ⟨false, false, false, false, false⟩

/-- The result kept for a function. -/
def get (k : GuardCache) : CacheCell → Bool
  | .verifySource => k.verifySource
  | .verifySourceCc => k.verifySourceCc
  | .verifySourceRf => k.verifySourceRf
  | .syncRequired => k.syncRequired
  | .syncInProgress => k.syncInProgress

/-- The statics once a function has returned `b`. -/
def set (k : GuardCache) : CacheCell → Bool → GuardCache
  | .verifySource, b => { k with verifySource := b }
  | .verifySourceCc, b => { k with verifySourceCc := b }
  | .verifySourceRf, b => { k with verifySourceRf := b }
  | .syncRequired, b => { k with syncRequired := b }
  | .syncInProgress, b => { k with syncInProgress := b }

end GuardCache

/-- The data the table's guards and actions read and write. -/
structure SyncData (Conn : Type) where
  impl : SyncManager Conn
  cache : GuardCache
deriving DecidableEq, Repr

/-- The events of the table. -/
inductive SyncEvent (Conn BlockId : Type)
  | libCatchup (target : UInt32) (syncHint : Option Conn)
  | headCatchup
  | recvBlock (blkId : BlockId) (blkNum : UInt32) (blkApplied : Bool)
  | closeConnection (c : Conn)
  | reassignFetch (c : Conn)
deriving DecidableEq, Repr

/-- `sync_manager::state_machine` with the manager it drives. -/
structure SyncStateMachine (Conn : Type) where
  state : SyncState
  data : SyncData Conn
deriving DecidableEq, Repr

namespace SyncStateMachine

open SyncManager

variable {Conn BlockId : Type} [DecidableEq Conn] [DecidableEq BlockId]

/-! ### The guards and actions of the table, one for each lambda of `operator()` -/

section Lambdas

variable (syncReqSpan : UInt32) (env : Env Conn BlockId)

/-- `reset_source`, the entry action of `in_sync`. -/
def resetSource (d : SyncData Conn) : SyncData Conn :=
  { d with impl := d.impl.resetSyncSource }

/-- `set_lib`. -/
def setLib (target : UInt32) (d : SyncData Conn) : SyncData Conn :=
  { d with impl := d.impl.syncResetLibNum target }

/-- `sync_required`. -/
def syncRequired (target : UInt32) : Guard (SyncData Conn) :=
  Guard.ofPred fun d => d.impl.isSyncRequired env target

/-- `sync_in_progress`. -/
def syncInProgress : Guard (SyncData Conn) :=
  Guard.ofPred fun d => d.impl.syncInProgress env

/-- `set_expected`. -/
def setExpected (d : SyncData Conn) : SyncData Conn :=
  { d with impl := d.impl.updateNextExpected env }

/-- `start_sync`. -/
def startSync (d : SyncData Conn) : List (Output Conn) × SyncData Conn :=
  match d.impl.beginSync syncReqSpan with
  | (out, impl) => (out, { d with impl })

/-- `set_new_source`. -/
def setNewSource (syncHint : Option Conn) : Guard (SyncData Conn) := fun d =>
  match d.impl.setNewSyncSource env syncHint with
  | (found, impl) => (found, { d with impl })

/-- `update_expected`. -/
def updateExpected (blkNum : UInt32) (blkApplied : Bool) (d : SyncData Conn) : SyncData Conn :=
  { d with impl := d.impl.syncUpdateExpected blkNum blkApplied }

/-- `blk_ge_lib`. -/
def blkGeLib (blkNum : UInt32) : Guard (SyncData Conn) :=
  Guard.ofPred fun d => d.impl.blockGeLib blkNum

/-- `blk_ge_last_req`. -/
def blkGeLastReq (blkNum : UInt32) : Guard (SyncData Conn) :=
  Guard.ofPred fun d => d.impl.blockGeLastRequested blkNum

/-- `verify_source`, `verify_source_cc` and `verify_source_rf`: `set_new_sync_source({})`. -/
def verifySource : Guard (SyncData Conn) :=
  setNewSource env none

/-- `snd_handshakes`. -/
def sndHandshakes (d : SyncData Conn) : List (Output Conn) × SyncData Conn :=
  ([.sendHandshakes], d)

/-- `continue_snc`. -/
def continueSnc (d : SyncData Conn) : List (Output Conn) × SyncData Conn :=
  match d.impl.continueSync syncReqSpan with
  | (out, impl) => (out, { d with impl })

/-- `continue_catchup`. -/
def continueCatchup (blkId : BlockId) (blkNum : UInt32) : Guard (SyncData Conn) :=
  Guard.ofPred fun _ => continueHeadCatchup env blkId blkNum

/-- `reset_lib`. -/
def resetLib (d : SyncData Conn) : SyncData Conn :=
  { d with impl := d.impl.setHighestLib env }

/-- `is_source` and `is_source_rf`. -/
def isSource (c : Conn) : Guard (SyncData Conn) :=
  Guard.ofPred fun d => d.impl.isSyncSource c

/-- `close_source`. -/
def closeSource (d : SyncData Conn) : SyncData Conn :=
  { d with impl := d.impl.closingSyncSource env }

/-- `reset_last_r`. -/
def resetLastR (d : SyncData Conn) : SyncData Conn :=
  { d with impl := d.impl.resetLastRequestedNum }

/-- `log_status`. -/
def logStatus (d : SyncData Conn) : List (Output Conn) × SyncData Conn :=
  ([], d)

/-- `cache<fn>(fn, return_cached)`: called, it keeps the result of `fn` in the static of `fn`;
with `return_cached` it returns what the static holds, and does not call `fn`. -/
def cache (cell : CacheCell) (fn : Guard (SyncData Conn)) (returnCached : Bool) :
    Guard (SyncData Conn) := fun d =>
  if returnCached then (d.cache.get cell, d)
  else
    match fn d with
    | (b, d) => (b, { d with cache := d.cache.set cell b })

end Lambdas

/-- The entry actions: `in_sync`'s, `reset_source`. -/
def entry : SyncState → SyncData Conn → SyncData Conn
  | .inSync => resetSource
  | .libCatchup => id
  | .headCatchup => id

/-- The transition table of `operator()`, the rows of each state and event in its order. -/
def transitions (syncReqSpan : UInt32) (env : Env Conn BlockId) :
    SyncState → SyncEvent Conn BlockId → List (Row (SyncData Conn) SyncState (Output Conn))
  | .inSync, .libCatchup target syncHint =>
    [⟨(Guard.always (setLib target)).and (syncRequired env target) |>.and
        (Guard.always (setExpected env)) |>.and (setNewSource env syncHint),
      startSync syncReqSpan, .libCatchup⟩]
  | .inSync, .headCatchup => [⟨Guard.pass, logStatus, .headCatchup⟩]
  | .inSync, .recvBlock _ blkNum blkApplied =>
    [⟨Guard.pass, fun d => ([], updateExpected blkNum blkApplied d), .inSync⟩]
  | .inSync, .closeConnection _ => [⟨Guard.pass, fun d => ([], resetLib env d), .inSync⟩]
  | .inSync, .reassignFetch _ => [⟨Guard.pass, fun d => ([], resetLastR d), .inSync⟩]
  | .libCatchup, .headCatchup => [⟨Guard.pass, skip, .libCatchup⟩]
  | .libCatchup, .recvBlock _ blkNum blkApplied =>
    [⟨(Guard.always (updateExpected blkNum blkApplied)).and (blkGeLib blkNum), sndHandshakes,
        .inSync⟩,
      ⟨(blkGeLastReq blkNum).and (cache .verifySource (verifySource env) false),
        continueSnc syncReqSpan, .libCatchup⟩,
      ⟨(blkGeLastReq blkNum).and (cache .verifySource (verifySource env) true).not, skip,
        .inSync⟩]
  | .libCatchup, .closeConnection c =>
    [⟨(Guard.always (resetLib env)).and (isSource c) |>.and
        (cache .verifySourceCc (verifySource env) false),
        fun d => continueSnc syncReqSpan (closeSource env d), .libCatchup⟩,
      ⟨(isSource c).and (cache .verifySourceCc (verifySource env) true).not, skip, .inSync⟩]
  | .libCatchup, .reassignFetch c =>
    [⟨(Guard.always resetLastR).and (isSource c) |>.and
        (cache .verifySourceRf (verifySource env) false),
        continueSnc syncReqSpan, .libCatchup⟩,
      ⟨(isSource c).and (cache .verifySourceRf (verifySource env) true).not, skip, .inSync⟩]
  | .libCatchup, .libCatchup target syncHint =>
    [⟨(Guard.always (setLib target)).and (cache .syncRequired (syncRequired env target) false) |>.and
        (Guard.always (setExpected env)) |>.and
        (cache .syncInProgress (syncInProgress env) false).not |>.and (setNewSource env syncHint),
        startSync syncReqSpan, .libCatchup⟩,
      ⟨(cache .syncRequired (syncRequired env target) false).and
        (cache .syncInProgress (syncInProgress env) true), skip, .libCatchup⟩,
      ⟨Guard.pass, skip, .inSync⟩]
  | .headCatchup, .recvBlock blkId blkNum blkApplied =>
    [⟨(Guard.always (updateExpected blkNum blkApplied)).and (continueCatchup env blkId blkNum).not,
      sndHandshakes, .inSync⟩]
  | .headCatchup, .closeConnection _ => [⟨Guard.pass, fun d => ([], resetLib env d), .inSync⟩]
  | .headCatchup, .reassignFetch _ => [⟨Guard.pass, fun d => ([], resetLastR d), .headCatchup⟩]
  | .headCatchup, .libCatchup _ _ => []
  | .headCatchup, .headCatchup => []

/-- The machine as started: in `in_sync`, whose entry action has run. -/
def initial : SyncStateMachine Conn :=
  ⟨.inSync, resetSource ⟨SyncManager.initial, GuardCache.initial⟩⟩

/-- `process_event(ev)`, with the environment the event meets. -/
def processEvent (syncReqSpan : UInt32) (env : Env Conn BlockId) (sm : SyncStateMachine Conn)
    (ev : SyncEvent Conn BlockId) : List (Output Conn) × SyncStateMachine Conn :=
  match fire entry sm.state (transitions syncReqSpan env sm.state ev) sm.data with
  | (out, state, data) => (out, ⟨state, data⟩)

/-- A run of events, each with its environment: everything posted, and the machine. -/
def run (syncReqSpan : UInt32) :
    SyncStateMachine Conn → List (Env Conn BlockId × SyncEvent Conn BlockId) →
      List (Output Conn) × SyncStateMachine Conn
  | sm, [] => ([], sm)
  | sm, (env, ev) :: evs =>
    match processEvent syncReqSpan env sm ev with
    | (out, sm) =>
      match run syncReqSpan sm evs with
      | (out', sm) => (out ++ out', sm)

/-! ### The requests the machine posts -/

section Requests

variable (syncReqSpan : UInt32)

/-- A request is to a source, for a range within the known irreversible block of the data it
leaves, at most `sync_req_span` blocks long; anything else posted is. -/
def RequestOk (d : SyncData Conn) : Output Conn → Prop
  | .requestSyncBlocks c start endNum =>
    c.isSome ∧ start ≤ endNum ∧ endNum ≤ d.impl.syncKnownLibNum ∧
      (0 < syncReqSpan → endNum - start < syncReqSpan)
  | .sendHandshakes => True

/-- A row posts only requests that are `RequestOk` for the data its action leaves. -/
def RowRequestsOk (r : Row (SyncData Conn) SyncState (Output Conn)) : Prop :=
  ∀ d₁ d₂, r.guard d₁ = (true, d₂) → ∀ o ∈ (r.action d₂).1, RequestOk syncReqSpan (r.action d₂).2 o

variable {syncReqSpan}

omit [DecidableEq Conn] in
/-- A row whose action posts no request. -/
theorem rowRequestsOk_of_quiet {g : Guard (SyncData Conn)} {action} {t : SyncState}
    (haction : ∀ d, (action d).1 = [] ∨ (action d).1 = [.sendHandshakes]) :
    RowRequestsOk syncReqSpan ⟨g, action, t⟩ := by
  intro _ d₂ _ o ho
  rcases haction d₂ with hnil | hhandshakes
  · rw [hnil] at ho
    cases ho
  · rw [hhandshakes, List.mem_singleton] at ho
    rw [ho]
    trivial

omit [DecidableEq Conn] in
/-- A row whose guard holds only with a source, and whose action is `continue_sync` after a
step `f` that keeps the source. -/
theorem rowRequestsOk_of_continueSnc (f : SyncData Conn → SyncData Conn)
    {g : Guard (SyncData Conn)} {action} {t : SyncState}
    (haction : ∀ d, action d = continueSnc syncReqSpan (f d))
    (hg : ∀ d₁ d₂, g d₁ = (true, d₂) → d₂.impl.syncSource.isSome)
    (hf : ∀ d, (f d).impl.syncSource = d.impl.syncSource) :
    RowRequestsOk syncReqSpan ⟨g, action, t⟩ := by
  intro d₁ d₂ hguard o ho
  change o ∈ (action d₂).1 at ho
  -- the source is there when `continue_sync` runs
  have hsrc : (f d₂).impl.syncSource.isSome := by
    rw [hf]
    exact hg d₁ d₂ hguard
  show RequestOk syncReqSpan (action d₂).2 o
  rw [haction] at ho ⊢
  cases o with
  | sendHandshakes => trivial
  | requestSyncBlocks c start endNum =>
    obtain ⟨rfl, hle, hend, hspan⟩ := continueSync_request (m := (f d₂).impl) ho
    refine ⟨hsrc, hle, ?_, hspan⟩
    show endNum ≤ ((f d₂).impl.continueSync syncReqSpan).2.syncKnownLibNum
    rw [continueSync_syncKnownLibNum]
    exact hend

omit [DecidableEq BlockId] in
/-- `set_new_source` holds only with a source. -/
theorem setNewSource_found {env : Env Conn BlockId} {syncHint : Option Conn}
    {d₁ d₂ : SyncData Conn} (h : setNewSource env syncHint d₁ = (true, d₂)) :
    d₂.impl.syncSource.isSome := by
  unfold setNewSource at h
  cases hnew : d₁.impl.setNewSyncSource env syncHint with
  | mk found impl =>
    rw [hnew] at h
    cases h
    exact setNewSyncSource_found hnew


omit [DecidableEq BlockId] in
/-- The `cache` of `verify_source`, called, holds only with a source. -/
theorem cache_verifySource_found {env : Env Conn BlockId} {cell : CacheCell}
    {d₁ d₂ : SyncData Conn} (h : cache cell (verifySource env) false d₁ = (true, d₂)) :
    d₂.impl.syncSource.isSome := by
  unfold cache at h
  rw [if_neg Bool.false_ne_true] at h
  cases hverify : verifySource env d₁ with
  | mk found d =>
    rw [hverify] at h
    cases h
    -- the static is written, the manager is as `verify_source` left it
    have hfound : d.impl.syncSource.isSome := setNewSource_found hverify
    exact hfound

/-- **Every row of the table posts only good requests**: those that call `continue_sync` are held
by `set_new_source` or by the `cache` of `verify_source`, which hold only once a source is set. -/
theorem transitions_requestsOk (env : Env Conn BlockId)
    (st : SyncState) (ev : SyncEvent Conn BlockId) :
    ∀ r ∈ transitions syncReqSpan env st ev, RowRequestsOk syncReqSpan r := by
  have hnew : ∀ (g : Guard (SyncData Conn)) syncHint d₁ d₂,
      (g.and (setNewSource env syncHint)) d₁ = (true, d₂) → d₂.impl.syncSource.isSome := by
    intro g syncHint d₁ d₂ h
    obtain ⟨_, _, h₂⟩ := Guard.and_eq_true.mp h
    exact setNewSource_found h₂
  have hverify : ∀ (g : Guard (SyncData Conn)) cell d₁ d₂,
      (g.and (cache cell (verifySource env) false)) d₁ = (true, d₂) →
        d₂.impl.syncSource.isSome := by
    intro g cell d₁ d₂ h
    obtain ⟨_, _, h₂⟩ := Guard.and_eq_true.mp h
    exact cache_verifySource_found h₂
  intro r hr
  cases st <;> cases ev <;>
    simp only [transitions, List.mem_cons, List.not_mem_nil, or_false] at hr
  case inSync.libCatchup =>
    subst hr
    exact rowRequestsOk_of_continueSnc id (fun _ => rfl) (hnew _ _) fun _ => rfl
  case libCatchup.libCatchup =>
    rcases hr with rfl | rfl | rfl
    · exact rowRequestsOk_of_continueSnc id (fun _ => rfl) (hnew _ _) fun _ => rfl
    · exact rowRequestsOk_of_quiet fun _ => .inl rfl
    · exact rowRequestsOk_of_quiet fun _ => .inl rfl
  case libCatchup.recvBlock =>
    rcases hr with rfl | rfl | rfl
    · exact rowRequestsOk_of_quiet fun _ => .inr rfl
    · exact rowRequestsOk_of_continueSnc id (fun _ => rfl) (hverify _ _) fun _ => rfl
    · exact rowRequestsOk_of_quiet fun _ => .inl rfl
  case libCatchup.closeConnection =>
    rcases hr with rfl | rfl
    · exact rowRequestsOk_of_continueSnc (closeSource env) (fun _ => rfl) (hverify _ _)
        fun _ => rfl
    · exact rowRequestsOk_of_quiet fun _ => .inl rfl
  case libCatchup.reassignFetch =>
    rcases hr with rfl | rfl
    · exact rowRequestsOk_of_continueSnc id (fun _ => rfl) (hverify _ _) fun _ => rfl
    · exact rowRequestsOk_of_quiet fun _ => .inl rfl
  case headCatchup.recvBlock =>
    subst hr
    exact rowRequestsOk_of_quiet fun _ => .inr rfl
  -- the other rows post nothing
  all_goals
    subst hr
    exact rowRequestsOk_of_quiet fun _ => .inl rfl


omit [DecidableEq Conn] [DecidableEq BlockId] in
/-- The entry action of `in_sync` only clears the source. -/
theorem entry_syncKnownLibNum (t : SyncState) (d : SyncData Conn) :
    (entry t d).impl.syncKnownLibNum = d.impl.syncKnownLibNum := by
  cases t <;> rfl

/-- **Every request an event posts** is to a source, for a range that starts at or before its
end, ends at the known irreversible block at the latest, and spans at most `sync_req_span`
blocks. -/
theorem processEvent_requests {env : Env Conn BlockId} {sm : SyncStateMachine Conn}
    {ev : SyncEvent Conn BlockId} {c : Option Conn} {start endNum : UInt32}
    (h : .requestSyncBlocks c start endNum ∈ (processEvent syncReqSpan env sm ev).1) :
    c.isSome ∧ start ≤ endNum ∧
      endNum ≤ (processEvent syncReqSpan env sm ev).2.data.impl.syncKnownLibNum ∧
      (0 < syncReqSpan → endNum - start < syncReqSpan) := by
  unfold processEvent at h ⊢
  cases hfire : fire entry sm.state (transitions syncReqSpan env sm.state ev) sm.data with
  | mk out rest =>
    obtain ⟨t, d⟩ := rest
    rw [hfire] at h
    rcases fire_cases hfire with ⟨rfl, -⟩ | ⟨r, hr, d₁, d₂, hguard, rfl, -, rfl⟩
    · -- no row fired: nothing was posted
      cases h
    · -- the row that fired posts only good requests, and entering its target keeps the block
      obtain ⟨hsrc, hle, hend, hspan⟩ :=
        transitions_requestsOk env sm.state ev r hr d₁ d₂ hguard _ h
      refine ⟨hsrc, hle, ?_, hspan⟩
      show endNum ≤ (entry r.target (r.action d₂).2).impl.syncKnownLibNum
      rw [entry_syncKnownLibNum]
      exact hend

/-- **Every request of a run** is to a source, for a range of at most `sync_req_span` blocks. -/
theorem run_requests {sm : SyncStateMachine Conn}
    {evs : List (Env Conn BlockId × SyncEvent Conn BlockId)} {c : Option Conn}
    {start endNum : UInt32} (h : .requestSyncBlocks c start endNum ∈ (run syncReqSpan sm evs).1) :
    c.isSome ∧ start ≤ endNum ∧ (0 < syncReqSpan → endNum - start < syncReqSpan) := by
  induction evs generalizing sm with
  | nil => cases h
  | cons step evs ih =>
    obtain ⟨env, ev⟩ := step
    -- the request was posted by the first event, or by the rest of the run
    rcases List.mem_append.mp h with hfirst | hrest
    · obtain ⟨hsrc, hle, -, hspan⟩ := processEvent_requests hfirst
      exact ⟨hsrc, hle, hspan⟩
    · exact ih hrest

end Requests

/-! ### A source lost in `lib_catchup` -/

/-- **A closed sync source leaves `lib_catchup` without a source.** With one connection, a
`lib_catchup` to block `10` takes it as source and requests blocks `1` to `10` from it. When it
closes (it is no longer current), `close_connection` finds no other source: the guard
`c_verify_source_cc` clears the source and fails, and the fallback row `is_source &&
!c_verify_source_cc_t`, which asks `is_source` again, fails too, now that there is no source.
No row fires, and the machine stays in `lib_catchup` with no source. -/
theorem closeConnection_leaves_libCatchup_without_source :
    run 100 (initial : SyncStateMachine ℕ)
      [(⟨0, 0, 0, [1], fun _ => (⟨true, false, 10, 0, none⟩ : Peer ℕ)⟩, .libCatchup 10 (some 1)),
       (⟨0, 0, 0, [1], fun _ => (⟨false, false, 10, 0, none⟩ : Peer ℕ)⟩, .closeConnection 1)] =
      ([.requestSyncBlocks (some 1) 1 10],
        ⟨.libCatchup, ⟨⟨0, 0, 1, none⟩, GuardCache.initial⟩⟩) := by
  decide

end SyncStateMachine

end Eosio.P2p
