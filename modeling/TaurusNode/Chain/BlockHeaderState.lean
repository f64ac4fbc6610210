import Mathlib
import TaurusNode.Chain.Authority

/-!
# The irreversibility fields of a block header state

A model of the DPoS part of `block_header_state::next` and `finish_next`
(libraries/chain/block_header_state.cpp): from a block's header state and the slot of the next
block, the next block's number, its confirmation counts, the block it proposes as irreversible
(`dpos_proposed_irreversible_blocknum`), the last irreversible block
(`dpos_irreversible_blocknum`, from `calc_dpos_last_irreversible`) and the producer maps, with
the promotion of a pending producer schedule.

`flat_map`s are lists of pairs, in the order their keys were first assigned; nothing below
depends on the order. The header carries no new producer schedule (no `new_producers` and no
`producer_schedule_change_extension`), so `finish_next` only carries the pending schedule on.

`calc_dpos_last_irreversible` takes the value one third of the way up the producers'
implied-irreversible block numbers. A schedule promotion keeps the entries of the producers
that stay and gives the new ones the current LIB, so the next block's LIB can be below its
parent's (`next_next_dposIrreversibleBlocknum_lt`).
-/

namespace Eosio.Chain

/-- `config::producer_repetitions`. -/
def producerRepetitions : ℕ := 12

/-- `config::maximum_tracked_dpos_confirmations`. -/
def maximumTrackedDposConfirmations : ℕ := 1024

/-- `producer_authority_schedule`, with the producers' names; their signing authorities play no
part here. -/
structure ProducerSchedule where
  version : UInt32
  producers : List Name
deriving DecidableEq, Repr

/-- `detail::schedule_info`, without the schedule's hash. -/
structure ScheduleInfo where
  scheduleLibNum : UInt32
  schedule : ProducerSchedule
deriving DecidableEq, Repr

/-- The fields of `block_header_state` that the DPoS computation of `next` reads and writes; the
timestamp is its slot. -/
structure DposHeaderState where
  blockNum : UInt32
  timestamp : UInt32
  dposProposedIrreversibleBlocknum : UInt32
  dposIrreversibleBlocknum : UInt32
  activeSchedule : ProducerSchedule
  producerToLastProduced : List (Name × UInt32)
  producerToLastImpliedIrb : List (Name × UInt32)
  confirmCount : List UInt8
  pendingSchedule : ScheduleInfo
deriving DecidableEq, Repr

/-- `flat_map::find`. -/
def flatMapFind (m : List (Name × UInt32)) (k : Name) : Option UInt32 :=
  (m.find? fun e => e.1 = k).map (·.2)

/-- `flat_map::operator[](k) = v`. -/
def flatMapAssign (m : List (Name × UInt32)) (k : Name) (v : UInt32) : List (Name × UInt32) :=
  if m.any fun e => e.1 = k then m.map fun e => if e.1 = k then (k, v) else e else m ++ [(k, v)]

/-- The confirmation loop of `next`: from position `i - 1` down, with `blocksToConfirm` blocks
left to confirm, count one confirmation off each position; the first position whose count
reaches zero becomes the proposed irreversible block, and it and every earlier position are
dropped. -/
def confirmLoop (blockNum : UInt32) (confirmCount : List UInt8) :
    ℕ → ℕ → UInt32 → List UInt8 × UInt32
  | 0, _, proposed => (confirmCount, proposed)
  | _ + 1, 0, proposed => (confirmCount, proposed)
  | i + 1, blocksToConfirm + 1, proposed =>
    let count := confirmCount.getD i 0 - 1
    let confirmCount := confirmCount.set i count
    if count = 0 then
      (confirmCount.drop (i + 1), blockNum - (confirmCount.length - 1 - i).toUInt32)
    else confirmLoop blockNum confirmCount i blocksToConfirm proposed

namespace DposHeaderState

variable (s : DposHeaderState)

/-- `get_scheduled_producer(t)`. -/
def getScheduledProducer (t : UInt32) : Name :=
  let n := s.activeSchedule.producers.length
  s.activeSchedule.producers.getD (t.toNat % (n * producerRepetitions) / producerRepetitions) ⟨0⟩

/-- `calc_dpos_last_irreversible(producer_of_next_block)`: the `(size - 1) / 3`-th smallest of
the implied irreversible block numbers, the next producer's being the proposed one. -/
def calcDposLastIrreversible (producerOfNextBlock : Name) : UInt32 :=
  let blocknums := s.producerToLastImpliedIrb.map fun e =>
    if e.1 = producerOfNextBlock then s.dposProposedIrreversibleBlocknum else e.2
  if blocknums = [] then 0
  else (blocknums.insertionSort (· ≤ ·)).getD ((blocknums.length - 1) / 3) 0

/-- The producer maps of a promoted schedule: a producer that stays keeps its entry, and a new
one gets `fresh`; the producer of the block gets `own`. -/
def promotedMap (m : List (Name × UInt32)) (producers : List Name) (producer : Name)
    (own fresh : UInt32) : List (Name × UInt32) :=
  producers.foldl (fun acc pro =>
    flatMapAssign acc pro
      (if pro = producer then own else (flatMapFind m pro).getD fresh)) []

/-- `next(when, num_prev_blocks_to_confirm)` followed by `finish_next` of a header without a new
schedule; `none` where the source throws. A `when` of `0` is the default timestamp. -/
def next (when : UInt32) (numPrevBlocksToConfirm : UInt16) : Option DposHeaderState := do
  -- "next block must be in the future"
  let when ← if when ≠ 0 then (if s.timestamp < when then some when else none)
    else some (s.timestamp + 1)
  let producer := s.getScheduledProducer when
  let blockNum := s.blockNum + 1
  -- `producer_double_confirm`
  match flatMapFind s.producerToLastProduced producer with
  | some last => if last < blockNum - numPrevBlocksToConfirm.toUInt32 then pure () else none
  | none => pure ()
  let requiredConfs := (s.activeSchedule.producers.length * 2 / 3 + 1).toUInt8
  let confirmCount :=
    if s.confirmCount.length < maximumTrackedDposConfirmations then s.confirmCount ++ [requiredConfs]
    else s.confirmCount.tail ++ [requiredConfs]
  let (confirmCount, proposed) := confirmLoop blockNum confirmCount confirmCount.length
    (numPrevBlocksToConfirm.toNat + 1) s.dposProposedIrreversibleBlocknum
  let lib := s.calcDposLastIrreversible producer
  if s.pendingSchedule.schedule.producers ≠ [] ∧ s.pendingSchedule.scheduleLibNum ≤ lib then
    -- the pending schedule becomes active
    let active := s.pendingSchedule.schedule
    let lastProduced := flatMapAssign
      (promotedMap s.producerToLastProduced active.producers producer blockNum lib) producer blockNum
    pure
      { blockNum, timestamp := when
        dposProposedIrreversibleBlocknum := proposed
        dposIrreversibleBlocknum := lib
        activeSchedule := active
        producerToLastProduced := lastProduced
        producerToLastImpliedIrb := promotedMap s.producerToLastImpliedIrb active.producers producer
          s.dposProposedIrreversibleBlocknum lib
        confirmCount
        pendingSchedule := ⟨s.pendingSchedule.scheduleLibNum, ⟨s.pendingSchedule.schedule.version, []⟩⟩ }
  else
    pure
      { blockNum, timestamp := when
        dposProposedIrreversibleBlocknum := proposed
        dposIrreversibleBlocknum := lib
        activeSchedule := s.activeSchedule
        producerToLastProduced := flatMapAssign s.producerToLastProduced producer blockNum
        producerToLastImpliedIrb := flatMapAssign s.producerToLastImpliedIrb producer
          s.dposProposedIrreversibleBlocknum
        confirmCount
        pendingSchedule := s.pendingSchedule }

end DposHeaderState

/-- Block 200 under the schedule `{1, 2, 3, 4}`, whose producer 1 last implied block 10 as
irreversible (it has been away), with the schedule `{1, 5}` pending since block 100. -/
def laggingProducerState : DposHeaderState where
  blockNum := 200
  timestamp := 12
  dposProposedIrreversibleBlocknum := 100
  dposIrreversibleBlocknum := 100
  activeSchedule := ⟨1, [⟨1⟩, ⟨2⟩, ⟨3⟩, ⟨4⟩]⟩
  producerToLastProduced := [(⟨1⟩, 150), (⟨2⟩, 190), (⟨3⟩, 195), (⟨4⟩, 199)]
  producerToLastImpliedIrb := [(⟨1⟩, 10), (⟨2⟩, 100), (⟨3⟩, 100), (⟨4⟩, 100)]
  confirmCount := []
  pendingSchedule := ⟨100, ⟨2, [⟨1⟩, ⟨5⟩]⟩⟩

/-- **The LIB can go down from a block to its child.** Block 201, produced by 2, promotes the
pending schedule with LIB 100; in `{1, 5}` producer 1 keeps its entry 10, so block 202, produced
by 5, has LIB 10. -/
theorem next_next_dposIrreversibleBlocknum_lt :
    (laggingProducerState.next 0 0).map (fun s => (s.blockNum, s.dposIrreversibleBlocknum)) =
        some (201, 100) ∧
      ((laggingProducerState.next 0 0).bind fun s => s.next 0 0).map
        (fun s => (s.blockNum, s.dposIrreversibleBlocknum)) = some (202, 10) := by
  decide

/-! ### Confirmation counts -/

/-- The first round of the confirmation loop counts the newest block. -/
theorem confirmLoop_append_singleton (blockNum : UInt32) (l : List UInt8) (x : UInt8) (k : ℕ)
    (proposed : UInt32) :
    confirmLoop blockNum (l ++ [x]) (l.length + 1) (k + 1) proposed =
      if x - 1 = 0 then ([], blockNum)
      else confirmLoop blockNum (l ++ [x - 1]) l.length k proposed := by
  have hget : (l ++ [x]).getD l.length 0 = x := by simp
  have hset : (l ++ [x]).set l.length (x - 1) = l ++ [x - 1] := by simp
  rw [confirmLoop, hget, hset]
  split_ifs with hzero
  · simp
  · rfl

/-- **The confirmation loop**, for a property `P` of the counts that a decrement to a nonzero
count keeps: the counts it leaves have `P`, and either it kept them all and the proposed block,
or it cut them after a position `j` whose block, `length - 1 - j` blocks below `blockNum`, is the
new proposed block. By induction on the positions left, with the counts generalized. -/
theorem confirmLoop_spec {P : UInt8 → Prop} (hdec : ∀ c, P c → c - 1 ≠ 0 → P (c - 1))
    (blockNum : UInt32) (i : ℕ) :
    ∀ (cc : List UInt8) (k : ℕ) (proposed : UInt32), i ≤ cc.length → (∀ c ∈ cc, P c) →
      (∀ c ∈ (confirmLoop blockNum cc i k proposed).1, P c) ∧
      (((confirmLoop blockNum cc i k proposed).2 = proposed ∧
          (confirmLoop blockNum cc i k proposed).1.length = cc.length) ∨
        ∃ j < i, (confirmLoop blockNum cc i k proposed).2 =
            blockNum - (cc.length - 1 - j).toUInt32 ∧
          (confirmLoop blockNum cc i k proposed).1.length = cc.length - (j + 1)) := by
  induction i with
  | zero =>
    intro cc k proposed _ hP
    exact ⟨hP, .inl ⟨rfl, rfl⟩⟩
  | succ i ih =>
    intro cc k proposed hi hP
    cases k with
    | zero => exact ⟨hP, .inl ⟨rfl, rfl⟩⟩
    | succ k =>
      have hmem : cc.getD i 0 ∈ cc := by
        rw [List.getD_eq_getElem _ _ (by omega)]
        exact List.getElem_mem _
      -- the decremented count keeps `P` unless it reached zero
      have hset : ∀ c ∈ cc.set i (cc.getD i 0 - 1), cc.getD i 0 - 1 ≠ 0 → P c := by
        intro c hc hne
        rcases List.mem_or_eq_of_mem_set hc with hc | rfl
        · exact hP c hc
        · exact hdec _ (hP _ hmem) hne
      simp only [confirmLoop]
      split_ifs with hzero
      · -- the count reached zero: the counts after it stay
        refine ⟨fun c hc => ?_, .inr ⟨i, Nat.lt_succ_self i, by simp, by simp⟩⟩
        rw [List.drop_set_of_lt (Nat.lt_succ_self i)] at hc
        exact hP c (List.mem_of_mem_drop hc)
      · have hlen : (cc.set i (cc.getD i 0 - 1)).length = cc.length := List.length_set ..
        obtain ⟨hP', hcases⟩ := ih (cc.set i (cc.getD i 0 - 1)) k proposed (by omega)
          (fun c hc => hset c hc hzero)
        refine ⟨hP', ?_⟩
        rw [hlen] at hcases
        rcases hcases with h | ⟨j, hj, h⟩
        · exact .inl h
        · exact .inr ⟨j, by omega, h⟩

namespace DposHeaderState

/-- `required_confs` of `next`: two thirds of the active producers, plus one. -/
def requiredConfs (s : DposHeaderState) : ℕ := s.activeSchedule.producers.length * 2 / 3 + 1

/-- The counts `next` starts its loop from: `required_confs` appended for the new block, after
the oldest count is dropped when `maximum_tracked_dpos_confirmations` are tracked. -/
def grownConfirmCount (s : DposHeaderState) : List UInt8 :=
  let requiredConfs := (s.activeSchedule.producers.length * 2 / 3 + 1).toUInt8
  if s.confirmCount.length < maximumTrackedDposConfirmations then s.confirmCount ++ [requiredConfs]
  else s.confirmCount.tail ++ [requiredConfs]

/-- What `next` does to the confirmation counts, in every branch that does not throw. -/
theorem next_confirm {s r : DposHeaderState} {when : UInt32} {n : UInt16}
    (h : s.next when n = some r) :
    r.blockNum = s.blockNum + 1 ∧
      (r.confirmCount, r.dposProposedIrreversibleBlocknum) =
        confirmLoop (s.blockNum + 1) s.grownConfirmCount s.grownConfirmCount.length (n.toNat + 1)
          s.dposProposedIrreversibleBlocknum := by
  unfold next at h
  -- every branch that returns builds the state from the same loop
  repeat' (first
    | simp only [Option.bind_eq_bind, Option.bind_some, Option.bind_none, Option.pure_def,
        Option.some.injEq, reduceCtorEq] at h
    | split at h)
  all_goals (subst h; refine ⟨rfl, ?_⟩; simp [grownConfirmCount, *])

/-- The bounds the confirmation counts keep: at most `maximum_tracked_dpos_confirmations` of
them, none zero, and each for a block above the proposed irreversible block (the counts are
those of the last `length` blocks). -/
structure ConfirmBounds (s : DposHeaderState) : Prop where
  length_le : s.confirmCount.length ≤ maximumTrackedDposConfirmations
  pos : ∀ c ∈ s.confirmCount, 0 < c.toNat
  tracked : s.dposProposedIrreversibleBlocknum.toNat + s.confirmCount.length ≤ s.blockNum.toNat

/-- A state that tracks no confirmations yet, as the genesis state, has the bounds. -/
theorem confirmBounds_of_nil {s : DposHeaderState} (hnil : s.confirmCount = [])
    (hle : s.dposProposedIrreversibleBlocknum.toNat ≤ s.blockNum.toNat) : s.ConfirmBounds where
  length_le := by simp [hnil]
  pos := by simp [hnil]
  tracked := by simpa [hnil] using hle

/-- The grown counts: the old ones, or all but the oldest, and the new block's. -/
theorem grownConfirmCount_eq (s : DposHeaderState) (hs : s.ConfirmBounds) :
    ∃ l, s.grownConfirmCount = l ++ [(s.requiredConfs).toUInt8] ∧
      l.length + 1 ≤ maximumTrackedDposConfirmations ∧ l.length ≤ s.confirmCount.length ∧
      ∀ c ∈ l, c ∈ s.confirmCount := by
  unfold grownConfirmCount
  split_ifs with hroom
  · exact ⟨s.confirmCount, rfl, hroom, le_rfl, fun _ hc => hc⟩
  · have hfull := hs.length_le
    have hmax : maximumTrackedDposConfirmations = 1024 := rfl
    refine ⟨s.confirmCount.tail, rfl, ?_, ?_, fun _ hc => List.mem_of_mem_tail hc⟩
    · rw [List.length_tail]
      omega
    · rw [List.length_tail]
      omega

/-- The new block's count after its first decrement is at most `required_confs`, also when the
byte `required_confs` wraps. -/
theorem toNat_requiredConfs_sub_one_le (s : DposHeaderState) :
    (s.requiredConfs.toUInt8 - 1).toNat ≤ s.requiredConfs := by
  have hpos : 1 ≤ s.requiredConfs := Nat.le_add_left 1 _
  rw [UInt8.toNat_sub, Nat.toUInt8_eq, UInt8.toNat_ofNat', UInt8.toNat_one]
  omega

/-- **One block keeps the bounds.** From a state with the bounds whose counts are at most `m`,
and a block number that does not wrap, `next` leaves the bounds, counts at most `m` when the new
block's first decremented count is, and a proposed irreversible block that did not go down and is
at most the new block. -/
theorem next_confirmBounds {s r : DposHeaderState} {when : UInt32} {n : UInt16} {m : ℕ}
    (hs : s.ConfirmBounds) (hm : ∀ c ∈ s.confirmCount, c.toNat ≤ m)
    (hrc : (s.requiredConfs.toUInt8 - 1).toNat ≤ m) (hnum : s.blockNum.toNat + 1 < 2 ^ 32)
    (h : s.next when n = some r) :
    r.ConfirmBounds ∧ (∀ c ∈ r.confirmCount, c.toNat ≤ m) ∧
      s.dposProposedIrreversibleBlocknum.toNat ≤ r.dposProposedIrreversibleBlocknum.toNat ∧
      r.dposProposedIrreversibleBlocknum.toNat ≤ r.blockNum.toNat := by
  obtain ⟨hblock, hloop⟩ := next_confirm h
  obtain ⟨l, hgrown, hroom, hshort, hsub⟩ := s.grownConfirmCount_eq hs
  have htracked := hs.tracked
  have hB : (s.blockNum + 1).toNat = s.blockNum.toNat + 1 := by
    rw [UInt32.toNat_add, UInt32.toNat_one]
    exact Nat.mod_eq_of_lt hnum
  have hrB : r.blockNum.toNat = s.blockNum.toNat + 1 := by rw [hblock, hB]
  rw [hgrown, List.length_append, List.length_singleton, confirmLoop_append_singleton] at hloop
  split_ifs at hloop with hzero
  · -- the new block is confirmed at once: nothing is tracked and it is the proposed block
    obtain ⟨hcc, hp⟩ := Prod.mk.inj hloop
    have hpB : r.dposProposedIrreversibleBlocknum.toNat = s.blockNum.toNat + 1 := by rw [hp, hB]
    refine ⟨⟨?_, ?_, ?_⟩, ?_, ?_, ?_⟩
    · simp [hcc]
    · simp [hcc]
    · rw [hcc, List.length_nil, hpB, hrB]
    · simp [hcc]
    · omega
    · omega
  · -- the loop over the older counts, the new one counted once already
    set P : UInt8 → Prop := fun c => 0 < c.toNat ∧ c.toNat ≤ m with hPdef
    have hdec : ∀ c, P c → c - 1 ≠ 0 → P (c - 1) := by
      intro c hc hne
      have hsub1 : (c - 1).toNat = c.toNat - 1 := by
        rw [UInt8.toNat_sub_of_le _ _ (UInt8.le_iff_toNat_le.mpr (by simp; omega))]
        rfl
      have hne' : (c - 1).toNat ≠ 0 := fun h0 => hne (UInt8.toNat_inj.mp (by simpa using h0))
      exact ⟨by omega, by omega⟩
    have hstart : ∀ c ∈ l ++ [s.requiredConfs.toUInt8 - 1], P c := by
      intro c hc
      rcases List.mem_append.mp hc with hc | hc
      · exact ⟨hs.pos c (hsub c hc), hm c (hsub c hc)⟩
      · rw [List.mem_singleton.mp hc]
        have hne : (s.requiredConfs.toUInt8 - 1).toNat ≠ 0 :=
          fun h0 => hzero (UInt8.toNat_inj.mp (by simpa using h0))
        exact ⟨Nat.pos_of_ne_zero hne, hrc⟩
    obtain ⟨hP, hcases⟩ := confirmLoop_spec hdec (s.blockNum + 1) l.length
      (l ++ [s.requiredConfs.toUInt8 - 1]) n.toNat s.dposProposedIrreversibleBlocknum (by simp)
      hstart
    obtain ⟨hcc, hp⟩ := Prod.mk.inj hloop
    have hlen1 : (l ++ [s.requiredConfs.toUInt8 - 1]).length = l.length + 1 := by simp
    rw [hlen1, ← hcc, ← hp] at hcases
    rw [← hcc] at hP
    have hposr : ∀ c ∈ r.confirmCount, 0 < c.toNat := fun c hc => (hP c hc).1
    have hmr : ∀ c ∈ r.confirmCount, c.toNat ≤ m := fun c hc => (hP c hc).2
    rcases hcases with ⟨hpeq, hlen⟩ | ⟨j, hj, hpeq, hlen⟩
    · -- no older count reached zero: the proposed block stays
      have hpr : r.dposProposedIrreversibleBlocknum.toNat =
          s.dposProposedIrreversibleBlocknum.toNat := by rw [hpeq]
      exact ⟨⟨by omega, hposr, by omega⟩, hmr, by omega, by omega⟩
    · -- the count of block `b + 1 - (l.length - j)` reached zero
      have hd : (l.length + 1 - 1 - j).toUInt32.toNat = l.length - j := by
        rw [Nat.toUInt32_eq, UInt32.toNat_ofNat']
        exact Nat.mod_eq_of_lt (by omega)
      have hdle : (l.length + 1 - 1 - j).toUInt32 ≤ s.blockNum + 1 := by
        rw [UInt32.le_iff_toNat_le, hd, hB]
        omega
      have hpj : r.dposProposedIrreversibleBlocknum.toNat =
          s.blockNum.toNat + 1 - (l.length - j) := by
        rw [hpeq, UInt32.toNat_sub_of_le _ _ hdle, hB, hd]
      exact ⟨⟨by omega, hposr, by omega⟩, hmr, by omega, by omega⟩

/-- The states reached from `s₀` by `next`, one block after another, with block numbers that
do not wrap. -/
inductive NextReachable (s₀ : DposHeaderState) : DposHeaderState → Prop
  | start : NextReachable s₀ s₀
  | next {s r : DposHeaderState} {when : UInt32} {n : UInt16} : NextReachable s₀ s →
      s.blockNum.toNat + 1 < 2 ^ 32 → s.next when n = some r → NextReachable s₀ r

/-- **Every run keeps the bounds**, by induction on the run, with the counts bounded by the
byte's `255` across schedule changes. -/
theorem NextReachable.confirmBounds {s₀ s : DposHeaderState} (h₀ : s₀.ConfirmBounds)
    (h : NextReachable s₀ s) : s.ConfirmBounds := by
  induction h with
  | start => exact h₀
  | next _ hnum hnext ih =>
    exact (next_confirmBounds ih (fun c _ => Nat.le_of_lt_succ c.toNat_lt)
      (Nat.le_of_lt_succ (UInt8.toNat_lt _)) hnum hnext).1

/-- **Along every run the proposed irreversible block does not go down.** -/
theorem NextReachable.proposed_le {s₀ s : DposHeaderState} (h₀ : s₀.ConfirmBounds)
    (h : NextReachable s₀ s) :
    s₀.dposProposedIrreversibleBlocknum.toNat ≤ s.dposProposedIrreversibleBlocknum.toNat := by
  induction h with
  | start => exact le_rfl
  | next hprev hnum hnext ih =>
    -- the bounds hold before the step, so the step keeps the proposed block
    have hbounds := NextReachable.confirmBounds h₀ hprev
    have hstep := (next_confirmBounds hbounds (fun c _ => Nat.le_of_lt_succ c.toNat_lt)
      (Nat.le_of_lt_succ (UInt8.toNat_lt _)) hnum hnext).2.2.1
    exact ih.trans hstep

end DposHeaderState

open DposHeaderState in
theorem next_confirmCount_inBounds :
    (∀ (s r : DposHeaderState) (when : UInt32) (n : UInt16), s.ConfirmBounds →
      (∀ c ∈ s.confirmCount, c.toNat ≤ s.requiredConfs) → s.blockNum.toNat + 1 < 2 ^ 32 →
      s.next when n = some r →
        r.confirmCount.length ≤ maximumTrackedDposConfirmations ∧
        (∀ c ∈ r.confirmCount, 1 ≤ c.toNat ∧ c.toNat ≤ s.requiredConfs) ∧
        s.dposProposedIrreversibleBlocknum.toNat ≤ r.dposProposedIrreversibleBlocknum.toNat ∧
        r.dposProposedIrreversibleBlocknum.toNat ≤ r.blockNum.toNat ∧ r.ConfirmBounds) ∧
    (∀ s₀ s : DposHeaderState, s₀.confirmCount = [] →
      s₀.dposProposedIrreversibleBlocknum.toNat ≤ s₀.blockNum.toNat → NextReachable s₀ s →
        s.confirmCount.length ≤ maximumTrackedDposConfirmations ∧
        (∀ c ∈ s.confirmCount, 1 ≤ c.toNat) ∧
        s₀.dposProposedIrreversibleBlocknum.toNat ≤ s.dposProposedIrreversibleBlocknum.toNat ∧
        s.dposProposedIrreversibleBlocknum.toNat ≤ s.blockNum.toNat) := by
  refine ⟨fun s r when n hs hle hnum h => ?_, fun s₀ s hnil hle h => ?_⟩
  · obtain ⟨hr, hrle, hmono, hblock⟩ :=
      next_confirmBounds hs hle s.toNat_requiredConfs_sub_one_le hnum h
    exact ⟨hr.length_le, fun c hc => ⟨hr.pos c hc, hrle c hc⟩, hmono, hblock, hr⟩
  · have h₀ := confirmBounds_of_nil hnil hle
    have hs := NextReachable.confirmBounds h₀ h
    have htracked := hs.tracked
    exact ⟨hs.length_le, hs.pos, NextReachable.proposed_le h₀ h, by omega⟩

/-- Block 10 under the schedule `{1, 2}`, which takes two confirmations, with the counts `1, 2, 2`
for blocks 8 to 10 and block `proposed` proposed as irreversible. -/
def confirmingState (proposed : UInt32) : DposHeaderState where
  blockNum := 10
  timestamp := 10
  dposProposedIrreversibleBlocknum := proposed
  dposIrreversibleBlocknum := 0
  activeSchedule := ⟨0, [⟨1⟩, ⟨2⟩]⟩
  producerToLastProduced := []
  producerToLastImpliedIrb := []
  confirmCount := [1, 2, 2]
  pendingSchedule := ⟨0, ⟨0, []⟩⟩

theorem next_confirmCount_inBounds_confirming :
    (6 : ℕ) ≤ (((confirmingState 6).next 0 3).get rfl).dposProposedIrreversibleBlocknum.toNat :=
  (next_confirmCount_inBounds.1 (confirmingState 6) _ 0 3
    ⟨by decide, by simp [confirmingState], by decide⟩
    (by simp [confirmingState, DposHeaderState.requiredConfs]) (by decide)
    (Option.some_get _).symm).2.2.1

/-- **The proposed irreversible block can go down when the counts reach below it.** With block 10
proposed and counts tracked for blocks 8 to 10, confirming three blocks back counts block 8 to
zero, and `next` proposes block 8. -/
theorem next_proposed_decreases :
    (confirmingState 10).confirmCount.length ≤ maximumTrackedDposConfirmations ∧
      (∀ c ∈ (confirmingState 10).confirmCount,
        1 ≤ c.toNat ∧ c.toNat ≤ (confirmingState 10).requiredConfs) ∧
      (confirmingState 10).dposProposedIrreversibleBlocknum ≤ (confirmingState 10).blockNum ∧
      ((confirmingState 10).next 0 3).map (·.dposProposedIrreversibleBlocknum) = some 8 := by
  refine ⟨by decide, by simp [confirmingState, DposHeaderState.requiredConfs], by decide, rfl⟩

end Eosio.Chain
