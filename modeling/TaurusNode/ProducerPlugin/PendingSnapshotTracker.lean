import Mathlib
import TaurusNode.Lib.Ledger
import TaurusNode.Lib.OrderedIndex

/-!
# Pending snapshots

A model of `pending_snapshot_tracker` (plugins/producer_plugin/pending_snapshot_tracker.cpp) and
of `pending_snapshot::finalize` (pending_snapshot.cpp). `create_snapshot(next)` answers the
request `next` at once in the `irreversible` read mode. In the other modes it writes a pending
snapshot of the head block, and the request is answered when that block becomes irreversible:
`promote_pending_snapshots(lib)`, called on each irreversible block, finalizes the pending
snapshots at or below `lib` in the order of their heights, and erases them. A request for a head
that already has a pending snapshot is chained to the callback of that snapshot.

The callbacks (`next_function`) are tokens `R`. What one does with its result is left open, except
whether it throws (`throws`): `CATCH_AND_CALL(next)` then calls it again, with the exception. The
file system and the chain are the environment of each call: whether the snapshot file exists
already, whether writing and renaming succeed, and which blocks `fetch_block_by_id` finds.

* `Inv.exec`: the `by_height` index stays in height order, with one snapshot per block id (the
  `by_id` index is unique).
* `count_runCalls_answered`: when no callback throws, every request of a run is answered exactly
  once, or is still pending.
* `runCalls_okAnswer_headBlockId`: a request is only ever answered with a snapshot of the head
  block it was made at, whatever the callbacks do.
* `promotePendingSnapshots_eq_filter`: on every reachable tracker, `promote_pending_snapshots(lib)`
  answers exactly the requests pending at or below `lib`, lowest block first, and keeps the rest.
* `promoteLoop_callbackThrows`: a callback that throws on its snapshot is called a second time,
  with its own exception.

The paths (`get_final_path`, `get_pending_path`, `get_temp_path`) and the `snapshot_name` of an
answer are left out: they are functions of the block id and the snapshot directory.
-/

namespace Eosio

/-- `db_read_mode`. -/
inductive DbReadMode
  | speculative
  | head
  | readOnly
  | irreversible
  deriving DecidableEq, Repr

/-- `snapshot_information`, without the `snapshot_name`. -/
structure SnapshotInformation (Id Tm : Type) where
  headBlockId : Id
  headBlockNum : UInt32
  headBlockTime : Tm
  version : UInt32
  deriving DecidableEq, Repr

/-- `chain_snapshot_header::current_version`. -/
def chainSnapshotCurrentVersion : UInt32 := 5

/-- The exceptions a request is answered with. -/
inductive SnapshotError (E : Type)
  /-- `snapshot_exists_exception`: "snapshot named … already exists" -/
  | snapshotExists
  /-- `snapshot_finalization_exception`: "Snapshotted block was forked out of the chain." -/
  | forkedOut
  /-- `snapshot_finalization_exception`: "Unable to finalize valid snapshot of block number …" -/
  | unableToFinalize
  /-- `snapshot_finalization_exception`: "Unable to promote temp snapshot to pending for block
  number …" -/
  | unableToPromote
  /-- another exception, as `CATCH_AND_CALL` passes it on: one thrown while writing the snapshot,
  or by a callback -/
  | caught (e : E)
  deriving DecidableEq, Repr

/-- What a request is answered with: the snapshot's information, or an exception. -/
abbrev SnapshotResult (Id Tm E : Type) := Except (SnapshotError E) (SnapshotInformation Id Tm)

/-- `pending_snapshot`: the block, and the callbacks waiting for its snapshot in the order they
were chained. -/
structure PendingSnapshot (Id R : Type) where
  blockId : Id
  next : List R
  deriving DecidableEq, Repr

/-- What the tracker reads of the controller. -/
structure SnapshotChain (Id Tm : Type) where
  headBlockId : Id
  headBlockNum : UInt32
  headBlockTime : Tm
  readMode : DbReadMode
  /-- `fetch_block_by_id`: the number and the timestamp of a block of the chain -/
  fetchBlockById : Id → Option (UInt32 × Tm)

/-- How the file operations of one `create_snapshot` go. -/
structure SnapshotFiles (E : Type) where
  /-- `fc::is_regular_file(snapshot_path)` -/
  snapshotExists : Bool
  /-- the exception `write_snapshot` throws, if any -/
  writeSnapshot : Option E
  /-- whether renaming the written file succeeds -/
  rename : Bool

/-- The calls on the tracker, each with the environment it meets. -/
inductive SnapshotCall (Id Tm E R : Type)
  | createSnapshot (chain : SnapshotChain Id Tm) (files : SnapshotFiles E) (next : R)
  | promotePendingSnapshots (chain : SnapshotChain Id Tm) (rename : Id → Bool) (libHeight : UInt32)

/-- `pending_snapshot_tracker`: `_pending_snapshot_index`, in the order of its `by_height` index. -/
structure PendingSnapshotTracker (Id R : Type) where
  pendingSnapshotIndex : List (PendingSnapshot Id R)

variable {Id Tm E R : Type} (numFromId : Id → UInt32)
  (throws : R → SnapshotResult Id Tm E → Option E)

/-! ### Calling the callbacks -/

/-- A chain of callbacks called with a result: one after the other, until one throws. -/
def callNext : List R → SnapshotResult Id Tm E → List (R × SnapshotResult Id Tm E) × Option E
  | [], _ => ([], none)
  | r :: rs, res =>
    match throws r res with
    | some e => ([(r, res)], some e)
    | none =>
      let out := callNext rs res
      ((r, res) :: out.1, out.2)

/-- `try { next(attempt) } CATCH_AND_CALL(next)`: the callbacks are called with the attempt's
result, or with the exception it threw. When a callback throws, they are called again with that
exception; an exception thrown then leaves the block. -/
def tryNext (next : List R) : SnapshotResult Id Tm E → List (R × SnapshotResult Id Tm E) × Option E
  | .error err => callNext throws next (.error err)
  | .ok info =>
    match callNext throws next (.ok info) with
    | (out, none) => (out, none)
    | (out, some e) =>
      let out' := callNext throws next (.error (.caught e))
      (out ++ out'.1, out'.2)

/-! ### The two calls -/

/-- `pending_snapshot::finalize`: the snapshot of a block still in the chain, once it is renamed to
its final path. -/
def PendingSnapshot.finalize (p : PendingSnapshot Id R) (chain : SnapshotChain Id Tm)
    (rename : Id → Bool) : SnapshotResult Id Tm E :=
  match chain.fetchBlockById p.blockId with
  | none => .error .forkedOut
  | some (blockNum, timestamp) =>
    if rename p.blockId then .ok ⟨p.blockId, blockNum, timestamp, chainSnapshotCurrentVersion⟩
    else .error .unableToFinalize

/-- The loop of `promote_pending_snapshots`: while the lowest pending snapshot is at or below
`lib_height`, finalize it, call its callbacks, and erase it. An exception that leaves
`CATCH_AND_CALL` ends the loop before the erase. -/
def promoteLoop (chain : SnapshotChain Id Tm) (rename : Id → Bool) (libHeight : UInt32) :
    List (PendingSnapshot Id R) →
      List (PendingSnapshot Id R) × List (R × SnapshotResult Id Tm E) × Option E
  | [] => ([], [], none)
  | p :: ps =>
    if numFromId p.blockId ≤ libHeight then
      match tryNext throws p.next (p.finalize chain rename) with
      | (out, some e) => (p :: ps, out, some e)
      | (out, none) =>
        let r := promoteLoop chain rename libHeight ps
        (r.1, out ++ r.2.1, r.2.2)
    else (p :: ps, [], none)

/-- Emplacing into the `by_height` index: after every snapshot at or below its height, where an
`ordered_non_unique` index places an element whose key it holds already. -/
def insertByHeight (p : PendingSnapshot Id R) :
    List (PendingSnapshot Id R) → List (PendingSnapshot Id R)
  | [] => [p]
  | q :: qs =>
    if numFromId p.blockId < numFromId q.blockId then p :: q :: qs
    else q :: insertByHeight p qs

section ById

variable [DecidableEq Id]

/-- `pending_by_id.modify(existing, ...)`: a callback chained after those of the snapshot of a
block. -/
def attachNext (blockId : Id) (next : R) : List (PendingSnapshot Id R) → List (PendingSnapshot Id R)
  | [] => []
  | q :: qs =>
    if q.blockId = blockId then { q with next := q.next ++ [next] } :: qs
    else q :: attachNext blockId next qs

namespace PendingSnapshotTracker

/-- `create_snapshot(chain, next)`: the tracker after it, the answers, and the exception that left
it, if any. -/
def createSnapshot (s : PendingSnapshotTracker Id R) (chain : SnapshotChain Id Tm)
    (files : SnapshotFiles E) (next : R) :
    PendingSnapshotTracker Id R × List (R × SnapshotResult Id Tm E) × Option E :=
  if files.snapshotExists then
    -- the legacy exception, called outside the `try` block
    let out := callNext throws [next] (.error .snapshotExists)
    (s, out.1, out.2)
  else if chain.readMode = .irreversible then
    let attempt : SnapshotResult Id Tm E := match files.writeSnapshot with
      | some e => .error (.caught e)
      | none =>
        if files.rename then
          .ok ⟨chain.headBlockId, chain.headBlockNum, chain.headBlockTime, chainSnapshotCurrentVersion⟩
        else .error .unableToFinalize
    let out := tryNext throws [next] attempt
    (s, out.1, out.2)
  else if s.pendingSnapshotIndex.any (·.blockId = chain.headBlockId) then
    (⟨attachNext chain.headBlockId next s.pendingSnapshotIndex⟩, [], none)
  else
    match files.writeSnapshot with
    | some e =>
      let out := callNext throws [next] (.error (.caught e))
      (s, out.1, out.2)
    | none =>
      if files.rename then
        (⟨insertByHeight numFromId ⟨chain.headBlockId, [next]⟩ s.pendingSnapshotIndex⟩, [], none)
      else
        let out := callNext throws [next] (.error .unableToPromote)
        (s, out.1, out.2)

/-- `promote_pending_snapshots(chain, lib_height)`. -/
def promotePendingSnapshots (s : PendingSnapshotTracker Id R) (chain : SnapshotChain Id Tm)
    (rename : Id → Bool) (libHeight : UInt32) :
    PendingSnapshotTracker Id R × List (R × SnapshotResult Id Tm E) × Option E :=
  let r := promoteLoop numFromId throws chain rename libHeight s.pendingSnapshotIndex
  (⟨r.1⟩, r.2.1, r.2.2)

/-- One call. An exception that leaves it goes to the caller, and the tracker stays as the call
left it. -/
def exec (s : PendingSnapshotTracker Id R) :
    SnapshotCall Id Tm E R → PendingSnapshotTracker Id R × List (R × SnapshotResult Id Tm E) × Option E
  | .createSnapshot chain files next => s.createSnapshot numFromId throws chain files next
  | .promotePendingSnapshots chain rename libHeight =>
    s.promotePendingSnapshots numFromId throws chain rename libHeight

/-- The tracker after a run of calls, and every answer of the run. -/
def runCalls (s : PendingSnapshotTracker Id R) (calls : List (SnapshotCall Id Tm E R)) :
    PendingSnapshotTracker Id R × List (R × SnapshotResult Id Tm E) :=
  Ledger.run (fun s call => ((s.exec numFromId throws call).1, (s.exec numFromId throws call).2.1))
    s calls

/-- The tracker no request has reached. -/
def empty : PendingSnapshotTracker Id R := ⟨[]⟩

end PendingSnapshotTracker

end ById

/-- The callbacks waiting for a snapshot. -/
def PendingSnapshotTracker.pendingNext (s : PendingSnapshotTracker Id R) : List R :=
  s.pendingSnapshotIndex.flatMap (·.next)

/-- The callback a call brings. -/
def SnapshotCall.next? : SnapshotCall Id Tm E R → List R
  | .createSnapshot _ _ next => [next]
  | .promotePendingSnapshots .. => []

/-! ### What the callbacks are called with -/

section Callbacks

variable {throws}

/-- Callbacks that never throw are each called once, with the result. -/
theorem callNext_of_noThrow (hthrows : ∀ r res, throws r res = none) :
    ∀ (rs : List R) (res : SnapshotResult Id Tm E),
      callNext throws rs res = (rs.map fun r => (r, res), none)
  | [], _ => rfl
  | r :: rs, res => by
    simp only [callNext, hthrows, callNext_of_noThrow hthrows rs res, List.map_cons]

theorem tryNext_of_noThrow (hthrows : ∀ r res, throws r res = none) (rs : List R)
    (res : SnapshotResult Id Tm E) : tryNext throws rs res = (rs.map fun r => (r, res), none) := by
  cases res with
  | error err => exact callNext_of_noThrow hthrows rs _
  | ok info => simp only [tryNext, callNext_of_noThrow hthrows]

/-- A chain of callbacks calls only its own callbacks, and with the result it is given. -/
theorem mem_callNext {rs : List R} {res : SnapshotResult Id Tm E} {a : R × SnapshotResult Id Tm E}
    (h : a ∈ (callNext throws rs res).1) : a.1 ∈ rs ∧ a.2 = res := by
  induction rs with
  | nil => cases h
  | cons r rs ih =>
    unfold callNext at h
    split at h
    · rw [List.mem_singleton] at h
      subst h
      exact ⟨List.mem_cons_self, rfl⟩
    · rcases List.mem_cons.mp h with rfl | h
      · exact ⟨List.mem_cons_self, rfl⟩
      · exact ⟨List.mem_cons_of_mem r (ih h).1, (ih h).2⟩

/-- Under `CATCH_AND_CALL`, a callback is called with a snapshot only when the attempt made that
snapshot: the second calls carry an exception. -/
theorem mem_tryNext_ok {rs : List R} {attempt : SnapshotResult Id Tm E} {r : R}
    {info : SnapshotInformation Id Tm} (h : (r, .ok info) ∈ (tryNext throws rs attempt).1) :
    r ∈ rs ∧ attempt = .ok info := by
  cases attempt with
  | error err => exact absurd (mem_callNext h).2 nofun
  | ok info' =>
    rcases hc : callNext throws rs (.ok info') with ⟨out, _ | e⟩
    · simp only [tryNext, hc] at h
      have hmem := mem_callNext (show (r, .ok info) ∈ (callNext throws rs (.ok info')).1 by rw [hc]; exact h)
      exact ⟨hmem.1, hmem.2.symm⟩
    · simp only [tryNext, hc, List.mem_append] at h
      rcases h with h | h
      · have hmem := mem_callNext
          (show (r, .ok info) ∈ (callNext throws rs (.ok info')).1 by rw [hc]; exact h)
        exact ⟨hmem.1, hmem.2.symm⟩
      · exact absurd (mem_callNext h).2 nofun

/-- A snapshot's information names the snapshot's block. -/
theorem PendingSnapshot.finalize_eq_ok {p : PendingSnapshot Id R} {chain : SnapshotChain Id Tm}
    {rename : Id → Bool} {info : SnapshotInformation Id Tm}
    (h : (p.finalize chain rename : SnapshotResult Id Tm E) = .ok info) :
    info.headBlockId = p.blockId := by
  unfold PendingSnapshot.finalize at h
  split at h
  · cases h
  · split_ifs at h
    cases h
    rfl

end Callbacks

/-! ### The index -/

section Index

variable {numFromId}

theorem perm_insertByHeight (p : PendingSnapshot Id R) :
    ∀ l : List (PendingSnapshot Id R), (insertByHeight numFromId p l).Perm (p :: l)
  | [] => List.Perm.refl _
  | q :: qs => by
    unfold insertByHeight
    split_ifs
    · exact List.Perm.refl _
    · exact ((perm_insertByHeight p qs).cons q).trans (List.Perm.swap p q qs)

/-- Emplacing keeps the `by_height` index in height order. -/
theorem pairwise_insertByHeight (p : PendingSnapshot Id R) :
    ∀ {l : List (PendingSnapshot Id R)},
      l.Pairwise (fun a b => numFromId a.blockId ≤ numFromId b.blockId) →
        (insertByHeight numFromId p l).Pairwise fun a b => numFromId a.blockId ≤ numFromId b.blockId
  | [], _ => List.pairwise_singleton _ _
  | q :: qs, h => by
    unfold insertByHeight
    split_ifs with hlt
    · -- before `q`, and so before every later snapshot
      refine List.Pairwise.cons (fun b hb => ?_) h
      rcases List.mem_cons.mp hb with rfl | hb
      · exact UInt32.le_of_lt hlt
      · exact UInt32.le_trans (UInt32.le_of_lt hlt) (List.rel_of_pairwise_cons h hb)
    · -- `q` stays first: it is at or below the new snapshot
      rw [List.pairwise_cons] at h ⊢
      refine ⟨fun b hb => ?_, pairwise_insertByHeight p h.2⟩
      rcases List.mem_cons.mp ((perm_insertByHeight p qs).mem_iff.mp hb) with rfl | hb
      · exact UInt32.not_lt.mp hlt
      · exact h.1 b hb

variable [DecidableEq Id]

@[simp] theorem map_blockId_attachNext (blockId : Id) (next : R) :
    ∀ l : List (PendingSnapshot Id R), (attachNext blockId next l).map (·.blockId) = l.map (·.blockId)
  | [] => rfl
  | q :: qs => by
    unfold attachNext
    split_ifs <;> simp [map_blockId_attachNext blockId next qs]

/-- Chaining a callback to the snapshot of a block in the index adds it to the callbacks waiting. -/
theorem flatMap_next_attachNext {blockId : Id} (next : R) :
    ∀ {l : List (PendingSnapshot Id R)}, blockId ∈ l.map (·.blockId) →
      ((attachNext blockId next l).flatMap (·.next)).Perm (l.flatMap (·.next) ++ [next])
  | [], h => by cases h
  | q :: qs, h => by
    unfold attachNext
    split_ifs with hq
    · -- the first snapshot of the block takes the callback
      simp only [List.flatMap_cons, List.append_assoc]
      exact (List.perm_append_comm.append_left _)
    · have hmem : blockId ∈ qs.map (·.blockId) := by
        rcases List.mem_cons.mp h with h | h
        · exact absurd h.symm hq
        · exact h
      simp only [List.flatMap_cons, List.append_assoc]
      exact (flatMap_next_attachNext next hmem).append_left _

/-- A snapshot after a callback is chained is one of the index, with that callback or not. -/
theorem mem_attachNext {blockId : Id} {next : R} {p' : PendingSnapshot Id R} :
    ∀ {l : List (PendingSnapshot Id R)}, p' ∈ attachNext blockId next l →
      ∃ p ∈ l, p.blockId = p'.blockId ∧
        (p'.next = p.next ∨ (p'.next = p.next ++ [next] ∧ p.blockId = blockId))
  | [], h => by cases h
  | q :: qs, h => by
    unfold attachNext at h
    split_ifs at h with hq
    · rcases List.mem_cons.mp h with rfl | h
      · exact ⟨q, List.mem_cons_self, rfl, .inr ⟨rfl, hq⟩⟩
      · exact ⟨p', List.mem_cons_of_mem q h, rfl, .inl rfl⟩
    · rcases List.mem_cons.mp h with rfl | h
      · exact ⟨p', List.mem_cons_self, rfl, .inl rfl⟩
      · obtain ⟨p, hp, hid, hnext⟩ := mem_attachNext h
        exact ⟨p, List.mem_cons_of_mem q hp, hid, hnext⟩

end Index

/-! ### The loop of `promote_pending_snapshots` -/

section Promote

variable {numFromId throws} {chain : SnapshotChain Id Tm} {rename : Id → Bool} {libHeight : UInt32}

/-- The loop erases snapshots from the front of the index only. -/
theorem promoteLoop_suffix :
    ∀ l : List (PendingSnapshot Id R), (promoteLoop numFromId throws chain rename libHeight l).1 <:+ l
  | [] => List.suffix_refl _
  | p :: ps => by
    unfold promoteLoop
    split_ifs
    · split
      · exact List.suffix_refl _
      · exact (promoteLoop_suffix ps).trans (List.suffix_cons p ps)
    · exact List.suffix_refl _

/-- **The loop, when no callback throws.** It finalizes the snapshots from the front of the index
as long as they are at or below `lib_height`, and calls the callbacks of each. -/
theorem promoteLoop_of_noThrow (hthrows : ∀ r res, throws r res = none) :
    ∀ l : List (PendingSnapshot Id R),
      promoteLoop numFromId throws chain rename libHeight l =
        (l.dropWhile (fun p => numFromId p.blockId ≤ libHeight),
          (l.takeWhile (fun p => numFromId p.blockId ≤ libHeight)).flatMap
            (fun p => p.next.map fun r => (r, p.finalize chain rename)), none)
  | [] => rfl
  | p :: ps => by
    unfold promoteLoop
    by_cases hp : numFromId p.blockId ≤ libHeight
    · rw [if_pos hp, tryNext_of_noThrow hthrows, promoteLoop_of_noThrow hthrows ps]
      simp [hp]
    · rw [if_neg hp]
      simp [hp]

/-- An ok answer of the loop is the snapshot of the block of one of its callback's snapshots. -/
theorem okAnswer_promoteLoop {r : R} {info : SnapshotInformation Id Tm} :
    ∀ {l : List (PendingSnapshot Id R)},
      (r, .ok info) ∈ (promoteLoop numFromId throws chain rename libHeight l).2.1 →
        ∃ p ∈ l, r ∈ p.next ∧ p.blockId = info.headBlockId
  | [], h => by cases h
  | p :: ps, h => by
    unfold promoteLoop at h
    split_ifs at h
    · rcases ht : tryNext throws p.next (p.finalize chain rename) with ⟨out, _ | e⟩
      · simp only [ht, List.mem_append] at h
        rcases h with h | h
        · -- an answer of the first snapshot
          obtain ⟨hr, hfin⟩ := mem_tryNext_ok (show (r, .ok info) ∈
            (tryNext throws p.next (p.finalize chain rename)).1 by rw [ht]; exact h)
          exact ⟨p, List.mem_cons_self, hr, (PendingSnapshot.finalize_eq_ok hfin).symm⟩
        · obtain ⟨q, hq, hr, hid⟩ := okAnswer_promoteLoop h
          exact ⟨q, List.mem_cons_of_mem p hq, hr, hid⟩
      · simp only [ht] at h
        obtain ⟨hr, hfin⟩ := mem_tryNext_ok (show (r, .ok info) ∈
          (tryNext throws p.next (p.finalize chain rename)).1 by rw [ht]; exact h)
        exact ⟨p, List.mem_cons_self, hr, (PendingSnapshot.finalize_eq_ok hfin).symm⟩
    · cases h

/-- **A callback that throws on its snapshot is called again**, by `CATCH_AND_CALL`, with its own
exception: its request is answered twice, first with the snapshot and then with the exception. -/
theorem promoteLoop_callbackThrows {p : PendingSnapshot Id R} {ps : List (PendingSnapshot Id R)}
    {r : R} {info : SnapshotInformation Id Tm} {e : E} (hp : numFromId p.blockId ≤ libHeight)
    (hnext : p.next = [r]) (hfin : (p.finalize chain rename : SnapshotResult Id Tm E) = .ok info)
    (hthrow : throws r (.ok info) = some e) (hcatch : throws r (.error (.caught e)) = none) :
    ((promoteLoop numFromId throws chain rename libHeight (p :: ps)).2.1).take 2 =
      [(r, .ok info), (r, .error (.caught e))] := by
  -- the snapshot, then the exception the callback threw on it
  have htry : tryNext throws p.next (p.finalize chain rename) =
      ([(r, .ok info), (r, .error (.caught e))], none) := by
    simp [hnext, hfin, tryNext, callNext, hthrow, hcatch]
  unfold promoteLoop
  rw [if_pos hp, htry]
  simp

end Promote

/-! ### One call -/

namespace PendingSnapshotTracker

section Step

variable [DecidableEq Id] (s : PendingSnapshotTracker Id R)

/-- **What `create_snapshot` can do.** Leave the index as it is and call the new callback alone,
under `CATCH_AND_CALL` or not, with an exception or with a snapshot of the head; chain the callback
to the pending snapshot of the head; or emplace a snapshot of the head with the callback. -/
theorem createSnapshot_cases (chain : SnapshotChain Id Tm) (files : SnapshotFiles E) (next : R) :
    ((s.createSnapshot numFromId throws chain files next).1 = s ∧
      ∃ attempt : SnapshotResult Id Tm E,
        (s.createSnapshot numFromId throws chain files next).2.1 =
          (tryNext throws [next] attempt).1 ∧
        ∀ info, attempt = .ok info → info.headBlockId = chain.headBlockId) ∨
    ((s.createSnapshot numFromId throws chain files next).1 =
        ⟨attachNext chain.headBlockId next s.pendingSnapshotIndex⟩ ∧
      (s.createSnapshot numFromId throws chain files next).2.1 = [] ∧
      chain.headBlockId ∈ s.pendingSnapshotIndex.map (·.blockId)) ∨
    ((s.createSnapshot numFromId throws chain files next).1 =
        ⟨insertByHeight numFromId ⟨chain.headBlockId, [next]⟩ s.pendingSnapshotIndex⟩ ∧
      (s.createSnapshot numFromId throws chain files next).2.1 = [] ∧
      chain.headBlockId ∉ s.pendingSnapshotIndex.map (·.blockId)) := by
  -- an exception alone is never a snapshot
  have herr : ∀ err : SnapshotError E, ∀ info, (.error err : SnapshotResult Id Tm E) = .ok info →
      info.headBlockId = chain.headBlockId := fun _ _ h => nomatch h
  unfold createSnapshot
  by_cases hexists : files.snapshotExists = true
  · rw [if_pos hexists]
    exact .inl ⟨rfl, _, rfl, herr _⟩
  rw [if_neg hexists]
  by_cases hmode : chain.readMode = .irreversible
  · -- `irreversible`: the snapshot, if any, is of the head
    rw [if_pos hmode]
    refine .inl ⟨rfl, _, rfl, fun info h => ?_⟩
    cases hw : files.writeSnapshot with
    | some e =>
      rw [hw] at h
      cases h
    | none =>
      rw [hw] at h
      by_cases hrename : files.rename = true
      · rw [if_pos hrename] at h
        cases h
        rfl
      · rw [if_neg hrename] at h
        cases h
  rw [if_neg hmode]
  by_cases hpending : s.pendingSnapshotIndex.any (·.blockId = chain.headBlockId) = true
  · rw [if_pos hpending]
    refine .inr (.inl ⟨rfl, rfl, ?_⟩)
    obtain ⟨p, hp, hid⟩ := List.any_eq_true.mp hpending
    exact List.mem_map.mpr ⟨p, hp, of_decide_eq_true hid⟩
  rw [if_neg hpending]
  have hnew : chain.headBlockId ∉ s.pendingSnapshotIndex.map (·.blockId) := fun hmem => by
    obtain ⟨p, hp, hid⟩ := List.mem_map.mp hmem
    exact hpending (List.any_eq_true.mpr ⟨p, hp, decide_eq_true hid⟩)
  cases hw : files.writeSnapshot with
  | some e => exact .inl ⟨rfl, _, rfl, herr _⟩
  | none =>
    by_cases hrename : files.rename = true
    · rw [if_pos hrename]
      exact .inr (.inr ⟨rfl, rfl, hnew⟩)
    · rw [if_neg hrename]
      exact .inl ⟨rfl, _, rfl, herr _⟩

end Step

/-- The tracker's invariant: the `by_height` index is in height order, and the `by_id` index holds
one snapshot per block. -/
structure Inv (s : PendingSnapshotTracker Id R) : Prop where
  sorted : s.pendingSnapshotIndex.Pairwise fun a b => numFromId a.blockId ≤ numFromId b.blockId
  unique : (s.pendingSnapshotIndex.map (·.blockId)).Nodup

theorem Inv.empty : (empty : PendingSnapshotTracker Id R).Inv numFromId :=
  ⟨List.Pairwise.nil, List.nodup_nil⟩

section Step

variable {numFromId throws} [DecidableEq Id] {s : PendingSnapshotTracker Id R}

/-- **Each call keeps the invariant**, whatever the callbacks do. -/
theorem Inv.exec (h : s.Inv numFromId) (call : SnapshotCall Id Tm E R) :
    (s.exec numFromId throws call).1.Inv numFromId := by
  cases call with
  | createSnapshot chain files next =>
    rcases createSnapshot_cases numFromId throws s chain files next
      with ⟨hs, -⟩ | ⟨hs, -, -⟩ | ⟨hs, -, hnew⟩
    · rw [PendingSnapshotTracker.exec, hs]
      exact h
    · -- chaining a callback leaves the blocks of the index as they are
      rw [PendingSnapshotTracker.exec, hs]
      have hsorted : (s.pendingSnapshotIndex.map (·.blockId)).Pairwise
          (fun a b => numFromId a ≤ numFromId b) := List.pairwise_map.mpr h.sorted
      rw [← map_blockId_attachNext chain.headBlockId next] at hsorted
      have hsorted' := List.pairwise_map.mp hsorted
      refine ⟨hsorted', ?_⟩
      rw [map_blockId_attachNext]
      exact h.unique
    · rw [PendingSnapshotTracker.exec, hs]
      refine ⟨pairwise_insertByHeight _ h.sorted, ?_⟩
      have hperm : (insertByHeight numFromId ⟨chain.headBlockId, [next]⟩ s.pendingSnapshotIndex).Perm
          (⟨chain.headBlockId, [next]⟩ :: s.pendingSnapshotIndex) := perm_insertByHeight _ _
      replace hperm := hperm.map (·.blockId)
      rw [hperm.nodup_iff, List.map_cons, List.nodup_cons]
      exact ⟨hnew, h.unique⟩
  | promotePendingSnapshots chain rename libHeight =>
    -- the loop leaves a suffix of the index
    have hsuffix : (promoteLoop numFromId throws chain rename libHeight s.pendingSnapshotIndex).1 <:+
        s.pendingSnapshotIndex := promoteLoop_suffix _
    exact ⟨h.sorted.sublist hsuffix.sublist, h.unique.sublist (hsuffix.sublist.map _)⟩

end Step

/-! ### Runs -/

section Runs

variable {numFromId throws} [DecidableEq Id]

/-- Every tracker a run reaches from one that satisfies the invariant satisfies it. -/
theorem Inv.runCalls {s : PendingSnapshotTracker Id R} (h : s.Inv numFromId)
    (calls : List (SnapshotCall Id Tm E R)) : (s.runCalls numFromId throws calls).1.Inv numFromId :=
  Ledger.inv_run _ _ (fun _ => True) (fun _ call hs _ => hs.exec call) h fun _ _ => trivial

/-- **One call loses no callback and calls none twice**, when no callback throws: the callbacks
waiting after it and those it calls are, up to order, those waiting before it and the one it
brings. -/
theorem pendingNext_exec_perm (hthrows : ∀ r res, throws r res = none)
    (s : PendingSnapshotTracker Id R) (call : SnapshotCall Id Tm E R) :
    ((s.exec numFromId throws call).1.pendingNext ++
        (s.exec numFromId throws call).2.1.map Prod.fst).Perm (s.pendingNext ++ call.next?) := by
  cases call with
  | createSnapshot chain files next =>
    simp only [PendingSnapshotTracker.exec, SnapshotCall.next?]
    rcases createSnapshot_cases numFromId throws s chain files next
      with ⟨hs, attempt, hout, -⟩ | ⟨hs, hout, hmem⟩ | ⟨hs, hout, -⟩
    · -- the callback is called at once, with its result
      rw [hs, hout, tryNext_of_noThrow hthrows]
      simp
    · rw [hs, hout, List.map_nil, List.append_nil]
      exact flatMap_next_attachNext next hmem
    · -- the new snapshot waits with the callback
      have hperm : (insertByHeight numFromId ⟨chain.headBlockId, [next]⟩ s.pendingSnapshotIndex).Perm
          (⟨chain.headBlockId, [next]⟩ :: s.pendingSnapshotIndex) := perm_insertByHeight _ _
      rw [hs, hout, List.map_nil, List.append_nil]
      refine (hperm.flatMap_right _).trans ?_
      simpa [pendingNext] using
        (List.perm_append_singleton next (s.pendingSnapshotIndex.flatMap (·.next))).symm
  | promotePendingSnapshots chain rename libHeight =>
    -- the snapshots finalized are the front of the index, each with all its callbacks called
    simp only [PendingSnapshotTracker.exec, promotePendingSnapshots, promoteLoop_of_noThrow hthrows,
      pendingNext, SnapshotCall.next?, List.append_nil, List.map_flatMap, List.map_map]
    refine List.perm_append_comm.trans ?_
    conv_rhs => rw [← List.takeWhile_append_dropWhile (l := s.pendingSnapshotIndex)
      (p := fun p => decide (numFromId p.blockId ≤ libHeight)), List.flatMap_append]
    simp [Function.comp_def]

/-- **Every request is answered exactly once.** When no callback throws, along any run of calls
from a tracker whose waiting callbacks and the callbacks the calls bring are all distinct, each
callback brought is called exactly once, or is still waiting and is not called. -/
theorem count_runCalls_answered [DecidableEq R] (hthrows : ∀ r res, throws r res = none)
    {s : PendingSnapshotTracker Id R} {calls : List (SnapshotCall Id Tm E R)}
    (hnodup : (s.pendingNext ++ calls.flatMap SnapshotCall.next?).Nodup) {r : R}
    (hr : r ∈ calls.flatMap SnapshotCall.next?) :
    ((s.runCalls numFromId throws calls).2.map Prod.fst).count r +
      (s.runCalls numFromId throws calls).1.pendingNext.count r = 1 :=
  Ledger.count_run _
    (fun (_ : PendingSnapshotTracker Id R) (_ : SnapshotCall Id Tm E R) (_ : True) (_ : True) =>
      trivial)
    (fun s call _ _ => pendingNext_exec_perm hthrows s call) trivial (fun _ _ => trivial) hnodup hr

/-- Callbacks that never throw. -/
def noThrow : R → SnapshotResult Id Tm E → Option E := fun _ _ => none

/-- A chain whose blocks are numbered by their ids, blocks `1` to `10` in it, with its head. -/
def exampleChain (head : ℕ) (readMode : DbReadMode) : SnapshotChain ℕ ℕ :=
  ⟨head, head.toUInt32, 0, readMode, fun id => if id ≤ 10 then some (id.toUInt32, 0) else none⟩

/-- Requests `1` and `2` at head `5` share one pending snapshot, request `3` waits at head `3`,
request `4` in `irreversible` mode is answered at once, and block `4` becomes irreversible. -/
def exampleCalls : List (SnapshotCall ℕ ℕ Unit ℕ) :=
  [.createSnapshot (exampleChain 5 .speculative) ⟨false, none, true⟩ 1,
    .createSnapshot (exampleChain 5 .speculative) ⟨false, none, true⟩ 2,
    .createSnapshot (exampleChain 3 .head) ⟨false, none, true⟩ 3,
    .createSnapshot (exampleChain 7 .irreversible) ⟨false, none, true⟩ 4,
    .promotePendingSnapshots (exampleChain 7 .speculative) (fun _ => true) 4]

theorem count_runCalls_answered_exampleCalls :
    ((empty.runCalls (fun n : ℕ => n.toUInt32) noThrow exampleCalls).2.map Prod.fst).count 1 +
      (empty.runCalls (fun n : ℕ => n.toUInt32) noThrow exampleCalls).1.pendingNext.count 1 = 1 :=
  count_runCalls_answered (fun _ _ => rfl) (by decide) (by decide)

/-- The callbacks of the pending snapshots were each brought by a `create_snapshot` call of the
history, made when the head was the snapshot's block. -/
def Requested (h : List (SnapshotCall Id Tm E R)) (s : PendingSnapshotTracker Id R) : Prop :=
  ∀ p ∈ s.pendingSnapshotIndex, ∀ r ∈ p.next,
    ∃ chain files, SnapshotCall.createSnapshot chain files r ∈ h ∧ chain.headBlockId = p.blockId

/-- A callback called with a snapshot was brought by a `create_snapshot` call of the history, made
when the head was the snapshot's block. -/
def AnsweredAtHead (h : List (SnapshotCall Id Tm E R)) (a : R × SnapshotResult Id Tm E) : Prop :=
  ∀ info, a.2 = .ok info →
    ∃ chain files, SnapshotCall.createSnapshot chain files a.1 ∈ h ∧ chain.headBlockId = info.headBlockId

/-- One call keeps the callbacks waiting tied to their requests, and answers with snapshots of
the heads of its requests only. -/
theorem requested_exec {h : List (SnapshotCall Id Tm E R)} {s : PendingSnapshotTracker Id R}
    (hs : Requested h s) (call : SnapshotCall Id Tm E R) :
    Requested (h ++ [call]) (s.exec numFromId throws call).1 ∧
      ∀ a ∈ (s.exec numFromId throws call).2.1, AnsweredAtHead (h ++ [call]) a := by
  -- what was requested before is requested in the longer history
  have hold : ∀ p ∈ s.pendingSnapshotIndex, ∀ r ∈ p.next, ∃ chain files,
      SnapshotCall.createSnapshot chain files r ∈ h ++ [call] ∧ chain.headBlockId = p.blockId := by
    intro p hp r hr
    obtain ⟨chain, files, hmem, hid⟩ := hs p hp r hr
    exact ⟨chain, files, List.mem_append_left _ hmem, hid⟩
  cases call with
  | createSnapshot chain files next =>
    have hthis : SnapshotCall.createSnapshot chain files next ∈
        h ++ [SnapshotCall.createSnapshot chain files next] := List.mem_append_right _ List.mem_cons_self
    rcases createSnapshot_cases numFromId throws s chain files next
      with ⟨hs', attempt, hout, hattempt⟩ | ⟨hs', hout, -⟩ | ⟨hs', hout, -⟩
    · refine ⟨by rw [PendingSnapshotTracker.exec, hs']; exact hold, ?_⟩
      -- the one callback called is the new one, with a snapshot of the head
      rintro ⟨r, res⟩ ha info rfl
      rw [PendingSnapshotTracker.exec, hout] at ha
      obtain ⟨hr, hok⟩ := mem_tryNext_ok ha
      rw [List.mem_singleton] at hr
      subst hr
      exact ⟨chain, files, hthis, (hattempt info hok).symm⟩
    · refine ⟨?_, by rw [PendingSnapshotTracker.exec, hout]; nofun⟩
      -- a callback chained to the head's snapshot was requested at the head
      rw [PendingSnapshotTracker.exec, hs']
      intro p' hp' r hr
      obtain ⟨p, hp, hid, hnext⟩ := mem_attachNext hp'
      rcases hnext with hnext | ⟨hnext, hhead⟩
      · rw [hnext] at hr
        rw [← hid]
        exact hold p hp r hr
      · rw [hnext, List.mem_append, List.mem_singleton] at hr
        rcases hr with hr | rfl
        · rw [← hid]
          exact hold p hp r hr
        · exact ⟨chain, files, hthis, by rw [← hid, hhead]⟩
    · refine ⟨?_, by rw [PendingSnapshotTracker.exec, hout]; nofun⟩
      rw [PendingSnapshotTracker.exec, hs']
      intro p' hp' r hr
      have hperm : (insertByHeight numFromId ⟨chain.headBlockId, [next]⟩ s.pendingSnapshotIndex).Perm
          (⟨chain.headBlockId, [next]⟩ :: s.pendingSnapshotIndex) := perm_insertByHeight _ _
      rcases List.mem_cons.mp (hperm.mem_iff.mp hp') with rfl | hp'
      · rw [List.mem_singleton] at hr
        subst hr
        exact ⟨chain, files, hthis, rfl⟩
      · exact hold p' hp' r hr
  | promotePendingSnapshots chain rename libHeight =>
    refine ⟨fun p hp => hold p ?_, ?_⟩
    · have hsuffix : (promoteLoop numFromId throws chain rename libHeight
          s.pendingSnapshotIndex).1 <:+ s.pendingSnapshotIndex := promoteLoop_suffix _
      exact hsuffix.subset hp
    · -- a snapshot of the loop is of the block of a pending snapshot of the callback
      rintro ⟨r, res⟩ ha info rfl
      obtain ⟨p, hp, hr, hid⟩ := okAnswer_promoteLoop ha
      obtain ⟨chain', files, hmem, hid'⟩ := hold p hp r hr
      exact ⟨chain', files, hmem, hid'.trans hid⟩

/-- **A request is only answered with a snapshot of its own head.** Along any run from the empty
tracker, whatever the callbacks do, a callback called with a snapshot was brought by a
`create_snapshot` call made when the head was the snapshot's block. -/
theorem runCalls_okAnswer_headBlockId (calls : List (SnapshotCall Id Tm E R)) {r : R}
    {info : SnapshotInformation Id Tm} (h : (r, .ok info) ∈ (empty.runCalls numFromId throws calls).2) :
    ∃ chain files, SnapshotCall.createSnapshot chain files r ∈ calls ∧
      chain.headBlockId = info.headBlockId := by
  have hrun := Ledger.forall_answers_run _ Requested AnsweredAtHead
    (fun h h' a ha info hinfo => by
      obtain ⟨chain, files, hmem, hid⟩ := ha info hinfo
      exact ⟨chain, files, List.mem_append_left _ hmem, hid⟩)
    (fun h s call hs => (requested_exec hs call : Requested (h ++ [call])
      (s.exec numFromId throws call).1 ∧ _)) calls []
    (empty : PendingSnapshotTracker Id R) nofun (r, .ok info) h
  exact hrun info rfl

theorem runCalls_okAnswer_headBlockId_exampleCalls :
    ∃ chain files, SnapshotCall.createSnapshot chain files 4 ∈ exampleCalls ∧
      chain.headBlockId = (⟨7, 7, 0, chainSnapshotCurrentVersion⟩ : SnapshotInformation ℕ ℕ).headBlockId :=
  runCalls_okAnswer_headBlockId exampleCalls
    (show (4, .ok ⟨7, 7, 0, chainSnapshotCurrentVersion⟩) ∈
      (empty.runCalls (fun n : ℕ => n.toUInt32) noThrow exampleCalls).2 by decide)

/-- **Promotion on a reachable tracker.** When no callback throws, on every tracker a run reaches
from the empty one, `promote_pending_snapshots(lib)` calls the callbacks of the snapshots at or
below `lib`, lowest block first and each with its snapshot or the exception of its finalization,
keeps exactly the snapshots above `lib`, and returns. -/
theorem promotePendingSnapshots_eq_filter (hthrows : ∀ r res, throws r res = none)
    (calls : List (SnapshotCall Id Tm E R)) (chain : SnapshotChain Id Tm) (rename : Id → Bool)
    (libHeight : UInt32) :
    (empty.runCalls numFromId throws calls).1.promotePendingSnapshots numFromId throws chain rename
        libHeight =
      (⟨(empty.runCalls numFromId throws calls).1.pendingSnapshotIndex.filter
          fun p => libHeight < numFromId p.blockId⟩,
        ((empty.runCalls numFromId throws calls).1.pendingSnapshotIndex.filter
          fun p => numFromId p.blockId ≤ libHeight).flatMap
            (fun p => p.next.map fun r => (r, p.finalize chain rename)), none) := by
  have hinv : (empty.runCalls numFromId throws calls).1.Inv numFromId :=
    (Inv.empty numFromId).runCalls calls
  -- the index is in height order, so the loop's range is closed towards the front
  have hclosed : (empty.runCalls numFromId throws calls).1.pendingSnapshotIndex.Pairwise
      fun a b => decide (numFromId b.blockId ≤ libHeight) → decide (numFromId a.blockId ≤ libHeight) :=
    hinv.sorted.imp fun hab hb => decide_eq_true (UInt32.le_trans hab (of_decide_eq_true hb))
  have hkeep : ((empty.runCalls numFromId throws calls).1.pendingSnapshotIndex.filter
      fun a => !decide (numFromId a.blockId ≤ libHeight)) =
      (empty.runCalls numFromId throws calls).1.pendingSnapshotIndex.filter
        fun p => libHeight < numFromId p.blockId := by
    refine List.filter_congr fun p _ => ?_
    by_cases hp : numFromId p.blockId ≤ libHeight
    · simp [hp, UInt32.not_lt.mpr hp]
    · simp [hp, UInt32.not_le.mp hp]
  rw [promotePendingSnapshots, promoteLoop_of_noThrow hthrows, OrderedIndex.takeWhile_eq_filter hclosed,
    OrderedIndex.dropWhile_eq_filter hclosed, hkeep]


theorem promotePendingSnapshots_eq_filter_exampleCalls :
    (empty.runCalls (fun n : ℕ => n.toUInt32) noThrow exampleCalls).1.promotePendingSnapshots
        (fun n : ℕ => n.toUInt32) (noThrow (E := Unit)) (exampleChain 8 .speculative) (fun _ => true) 6 =
      (⟨(empty.runCalls (fun n : ℕ => n.toUInt32) noThrow exampleCalls).1.pendingSnapshotIndex.filter
          fun p => (6 : UInt32) < p.blockId.toUInt32⟩,
        ((empty.runCalls (fun n : ℕ => n.toUInt32) noThrow exampleCalls).1.pendingSnapshotIndex.filter
          fun p => p.blockId.toUInt32 ≤ 6).flatMap
            (fun p => p.next.map fun r =>
              (r, p.finalize (E := Unit) (exampleChain 8 .speculative) fun _ => true)),
        none) :=
  promotePendingSnapshots_eq_filter (fun _ _ => rfl) exampleCalls (exampleChain 8 .speculative)
    (fun _ => true) 6

end Runs

end PendingSnapshotTracker

end Eosio
