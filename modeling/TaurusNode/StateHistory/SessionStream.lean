import Mathlib
import TaurusNode.StateHistory.Session

/-!
# The block stream of a session

What every run of a session sends, from the inversion lemmas of `send_update`
(`sendUpdateResult_cases` and the two that reduce the other overloads to it).

* **Credit.** Each result costs one unit of `max_messages_in_flight`, and credit comes only from a
  request (which replaces it) or an acknowledgement (which adds to it, wrapping as a `uint32_t`),
  so a run sends at most the credit it starts with plus what its events grant (`run_credit`).
* **Cursor.** A handler never moves `to_send_block_num` back, and a result names no block but the
  one at the cursor, which it then moves past (`Advances`). Between two requests the blocks the
  results name therefore increase strictly, from the cursor on (`run_blockNums_increasing`),
  whatever forks the node switches to. `run_forkSwitch` is such a switch: after blocks 1, 2 and 3
  were sent, the node moves to a fork that first differs at block 2, and the next result is
  block 4 with the new fork's block 3 as `prev_block`.
-/

namespace Eosio.StateHistory

namespace Session

variable {I : Type} (chain : ChainView I)

theorem maxMessagesInFlight_of_currentRequest {s t : Session I}
    (h : t.currentRequest = s.currentRequest) : t.maxMessagesInFlight = s.maxMessagesInFlight := by
  unfold maxMessagesInFlight
  rw [h]

/-- What a handler does to the cursor: it never moves it back, and a result it sends names no
block but the one at the cursor, which it then moves past. -/
def Advances (s : Session I) (r : Session I × Option (GetBlocksResult I)) : Prop :=
  s.toSendBlockNum.toNat ≤ r.1.toSendBlockNum.toNat ∧
    ∀ b ∈ r.2, ∀ p ∈ b.thisBlock,
      p.blockNum = s.toSendBlockNum ∧ r.1.toSendBlockNum.toNat = s.toSendBlockNum.toNat + 1

theorem advances_self (s : Session I) : Advances s (s, none) :=
  ⟨Nat.le_refl _, fun _ hb => absurd hb (Option.not_mem_none _)⟩

variable [DecidableEq I]

/-! ### Credit -/

/-- `send_update` spends one unit of credit on the result it sends. -/
theorem sendUpdateResult_credit (head : BlockPosition I) {req : GetBlocksRequest I}
    {s : Session I} (hreq : s.currentRequest = some req) :
    (s.sendUpdateResult chain head req).2.toList.length +
        (s.sendUpdateResult chain head req).1.maxMessagesInFlight.toNat ≤
      s.maxMessagesInFlight.toNat := by
  rcases sendUpdateResult_cases chain head req s with
    ⟨t, heq, -, ht⟩ | ⟨-, -, -, t, heq, -, ht⟩ | ⟨hmax, -, t, heq, -⟩
  · -- nothing sent, the request as it was
    rw [heq, maxMessagesInFlight_of_currentRequest ht]
    simp
  · -- a block skipped, the request as it was
    rw [heq, maxMessagesInFlight_of_currentRequest ht]
    simp
  · -- one result sent, one unit of credit spent
    have hcredit : s.maxMessagesInFlight = req.maxMessagesInFlight := by
      unfold maxMessagesInFlight
      rw [hreq]
    have hspent := toNat_sub_one_add_one hmax
    rw [heq, hcredit]
    show 1 + (req.maxMessagesInFlight - 1).toNat ≤ req.maxMessagesInFlight.toNat
    omega

theorem sendUpdateHead_credit (head : BlockPosition I) (s : Session I) :
    (s.sendUpdateHead chain head).2.toList.length +
        (s.sendUpdateHead chain head).1.maxMessagesInFlight.toNat ≤
      s.maxMessagesInFlight.toNat := by
  rcases sendUpdateHead_cases chain head s with heq | ⟨req, hreq, heq⟩
  · rw [heq]
    simp
  · rw [heq]
    exact sendUpdateResult_credit chain head hreq

theorem sendUpdate_credit (changed : Bool) (s : Session I) :
    (s.sendUpdate chain changed).2.toList.length +
        (s.sendUpdate chain changed).1.maxMessagesInFlight.toNat ≤
      s.maxMessagesInFlight.toNat := by
  rcases sendUpdate_cases chain changed s with heq | heq
  · rw [heq]
    simp
  · rw [heq]
    exact sendUpdateHead_credit chain chain.head s

/-- **One event's credit.** A handler sends no more than the credit it finds plus what its event
grants. -/
theorem receive_credit (e : Event I) (s : Session I) :
    (s.receive chain e).2.toList.length + (s.receive chain e).1.maxMessagesInFlight.toNat ≤
      s.maxMessagesInFlight.toNat + e.numMessages := by
  cases e with
  | getBlocks req =>
    -- the request's credit replaces the session's
    have h := sendUpdate_credit chain true
      { s with
        toSendBlockNum := startBlockNum chain req
        positionIt := if req.havePositions = [] then s.positionIt else req.havePositions
        currentRequest := some req }
    exact Nat.le_add_left_of_le h
  | getBlocksAck numMessages =>
    show (s.getBlocksAck chain numMessages).2.toList.length +
        (s.getBlocksAck chain numMessages).1.maxMessagesInFlight.toNat ≤
      s.maxMessagesInFlight.toNat + numMessages.toNat
    unfold getBlocksAck
    split
    · next req hreq =>
      -- the acknowledgement adds to the credit, modulo `2 ^ 32`
      let acked := { req with maxMessagesInFlight := req.maxMessagesInFlight + numMessages }
      have h := sendUpdate_credit chain false { s with currentRequest := some acked }
      have hwrap : (req.maxMessagesInFlight + numMessages).toNat ≤
          req.maxMessagesInFlight.toNat + numMessages.toNat := by
        rw [UInt32.toNat_add]
        exact Nat.mod_le _ _
      have hcredit : s.maxMessagesInFlight = req.maxMessagesInFlight := by
        unfold maxMessagesInFlight
        rw [hreq]
      rw [hcredit]
      exact Nat.le_trans h hwrap
    · simp
  | acceptedBlock block => exact Nat.le_add_right_of_le (sendUpdateHead_credit chain block s)
  | sendQueueEmpty => exact Nat.le_add_right_of_le (sendUpdate_credit chain false s)

/-! ### Cursor -/

theorem advances_sendUpdateResult (head : BlockPosition I) (req : GetBlocksRequest I)
    (s : Session I) : Advances s (s.sendUpdateResult chain head req) := by
  rcases sendUpdateResult_cases chain head req s with
    ⟨t, heq, ht, -⟩ | ⟨-, hend, -, t, heq, ht, -⟩ | ⟨-, hend, t, heq, ht⟩
  · rw [heq]
    exact ⟨Nat.le_of_eq (congrArg UInt32.toNat ht.symm), fun _ hb => absurd hb (Option.not_mem_none _)⟩
  · -- a skip moves the cursor on by one, below the request's end
    rw [heq]
    refine ⟨?_, fun _ hb => absurd hb (Option.not_mem_none _)⟩
    rw [ht, toNat_add_one_of_lt hend]
    exact Nat.le_succ _
  · -- the result names the block at the cursor
    have hnext : (t.toSendBlockNum + 1).toNat = s.toSendBlockNum.toNat + 1 := by
      rw [ht]
      exact toNat_add_one_of_lt hend
    rw [heq]
    refine ⟨?_, fun b hb p hp => ?_⟩
    · show s.toSendBlockNum.toNat ≤ (t.toSendBlockNum + 1).toNat
      rw [hnext]
      exact Nat.le_succ _
    · obtain rfl : blockResult chain head t.toSendBlockNum = b := Option.some.inj hb
      exact ⟨(blockNum_of_thisBlock chain hp).trans ht, hnext⟩

theorem advances_sendUpdateHead (head : BlockPosition I) (s : Session I) :
    Advances s (s.sendUpdateHead chain head) := by
  rcases sendUpdateHead_cases chain head s with heq | ⟨req, -, heq⟩
  · rw [heq]
    exact advances_self s
  · rw [heq]
    exact advances_sendUpdateResult chain head req s

theorem advances_sendUpdate (changed : Bool) (s : Session I) :
    Advances s (s.sendUpdate chain changed) := by
  rcases sendUpdate_cases chain changed s with heq | heq
  · rw [heq]
    exact advances_self s
  · rw [heq]
    exact advances_sendUpdateHead chain chain.head s

/-- Every event but a new request advances the cursor. -/
theorem advances_receive {e : Event I} (he : ∀ req, e ≠ .getBlocks req) (s : Session I) :
    Advances s (s.receive chain e) := by
  cases e with
  | getBlocks req => exact absurd rfl (he req)
  | getBlocksAck numMessages =>
    show Advances s (s.getBlocksAck chain numMessages)
    unfold getBlocksAck
    split
    · next req _ =>
      -- the acknowledgement leaves the cursor alone
      let acked := { req with maxMessagesInFlight := req.maxMessagesInFlight + numMessages }
      exact advances_sendUpdate chain false { s with currentRequest := some acked }
    · exact advances_self s
  | acceptedBlock block => exact advances_sendUpdateHead chain block s
  | sendQueueEmpty => exact advances_sendUpdate chain false s

end Session

/-! ### Runs -/

section Runs

variable {I : Type} [DecidableEq I]

/-- **Flow control.** Every result a run sends is paid for by the credit the session had or by a
request or an acknowledgement of the run. -/
theorem Session.run_credit (s : Session I) (events : List (ChainView I × Event I)) :
    (s.run events).2.length + (s.run events).1.maxMessagesInFlight.toNat ≤
      s.maxMessagesInFlight.toNat + (events.map fun e => e.2.numMessages).sum :=
  OutputRun.length_run_add_le _ (fun s => s.maxMessagesInFlight.toNat) (fun e => e.2.numMessages)
    (fun s e => Session.receive_credit e.1 e.2 s) events s

/-- **A new session sends no more results than its requests and acknowledgements grant.** -/
theorem Session.initial_run_length_le (events : List (ChainView I × Event I)) :
    (Session.initial.run events).2.length ≤ (events.map fun e => e.2.numMessages).sum := by
  have h := Session.run_credit Session.initial events
  have hinit : (Session.initial : Session I).maxMessagesInFlight.toNat = 0 := rfl
  omega

end Runs

/-! ### The stream between two requests -/

/-- A chain whose block `n` has id `ids[n - 1]`: its head is its last block, and block 1 is
irreversible. -/
def chainOf (ids : List ℕ) : ChainView ℕ where
  getBlockId n := if n = 0 then none else ids[n.toNat - 1]?
  head := ⟨ids.length.toUInt32, ids.getLastD 0⟩
  lastIrreversible := ⟨1, ids.headD 0⟩

/-- A client asks for every block from block 1 while the node is at block 2. The node accepts
block 3 and the client's queue empties; the node then switches to a fork that first differs at
block 2, accepting its blocks 2, 3 and 4. -/
def forkSwitch : List (ChainView ℕ × Event ℕ) :=
  [(chainOf [1, 2], .getBlocks ⟨1, 0xFFFFFFFF, 10, [], false⟩),
    (chainOf [1, 2, 3], .acceptedBlock ⟨3, 3⟩),
    (chainOf [1, 2, 3], .sendQueueEmpty),
    (chainOf [1, 12], .acceptedBlock ⟨2, 12⟩),
    (chainOf [1, 12, 13], .acceptedBlock ⟨3, 13⟩),
    (chainOf [1, 12, 13, 14], .acceptedBlock ⟨4, 14⟩)]

section Increasing

variable {I : Type} [DecidableEq I]

/-- **The stream never goes back.** Whatever blocks the node accepts and whatever forks it
switches to, between two requests the blocks the results name increase strictly and none is
below the cursor the run starts from. -/
theorem Session.run_blockNums_increasing (s : Session I) (events : List (ChainView I × Event I))
    (hevents : ∀ e ∈ events, ∀ req, e.2 ≠ .getBlocks req) :
    ((s.run events).2.filterMap fun r => r.thisBlock.map (·.blockNum.toNat)).Pairwise (· < ·) ∧
      ∀ k ∈ (s.run events).2.filterMap (fun r => r.thisBlock.map (·.blockNum.toNat)),
        s.toSendBlockNum.toNat ≤ k := by
  -- the cursor rule, with the cursor `to_send_block_num` and the block a result names as key
  have hmono : ∀ (t : Session I) (e : ChainView I × Event I), (∀ req, e.2 ≠ .getBlocks req) →
      t.toSendBlockNum.toNat ≤ (t.receive e.1 e.2).1.toSendBlockNum.toNat :=
    fun t e he => (Session.advances_receive e.1 he t).1
  have hkey : ∀ (t : Session I) (e : ChainView I × Event I) b k, (∀ req, e.2 ≠ .getBlocks req) →
      (t.receive e.1 e.2).2 = some b → b.thisBlock.map (·.blockNum.toNat) = some k →
        t.toSendBlockNum.toNat ≤ k ∧ k < (t.receive e.1 e.2).1.toSendBlockNum.toNat := by
    intro t e b k he hb hk
    obtain ⟨p, hp, rfl⟩ := Option.map_eq_some_iff.mp hk
    obtain ⟨hnum, hnext⟩ := (Session.advances_receive e.1 he t).2 b hb p hp
    rw [hnum, hnext]
    exact ⟨Nat.le_refl _, Nat.lt_succ_self _⟩
  have h := OutputRun.keys_run _ _ _ _ hmono hkey hevents (s := s)
  exact ⟨h.1, fun k hk => (h.2 k hk).1⟩

end Increasing

/-- After the request of `forkSwitch`, its accepted blocks and queue-empty update send blocks
in increasing order. -/
theorem run_blockNums_increasing_forkSwitch :
    (∀ e ∈ forkSwitch.drop 1, ∀ req, e.2 ≠ .getBlocks req) ∧
      (((Session.initial.run (forkSwitch.take 1)).1.run (forkSwitch.drop 1)).2.filterMap
          fun r => r.thisBlock.map (·.blockNum.toNat)).Pairwise (· < ·) ∧
      ∀ k ∈ ((Session.initial.run (forkSwitch.take 1)).1.run (forkSwitch.drop 1)).2.filterMap
          (fun r => r.thisBlock.map (·.blockNum.toNat)),
        (Session.initial.run (forkSwitch.take 1)).1.toSendBlockNum.toNat ≤ k := by
  have hevents : ∀ e ∈ forkSwitch.drop 1, ∀ req, e.2 ≠ .getBlocks req := by
    simp [forkSwitch]
  exact ⟨hevents, Session.run_blockNums_increasing _ _ hevents⟩

/-- **The stream does not follow a fork switch.** Blocks 1, 2 and 3 of the first fork are sent;
after the switch the next result is block 4, whose `prev_block` is the new fork's block 3 (id 13)
where the result for block 3 named id 3, and nothing at or below block 2 is sent again. -/
theorem run_forkSwitch :
    (Session.initial.run forkSwitch).2.map (fun r => (r.thisBlock, r.prevBlock)) =
      [(some ⟨1, 1⟩, none), (some ⟨2, 2⟩, some ⟨1, 1⟩), (some ⟨3, 3⟩, some ⟨2, 2⟩),
        (some ⟨4, 14⟩, some ⟨3, 13⟩)] := by
  decide

end Eosio.StateHistory
