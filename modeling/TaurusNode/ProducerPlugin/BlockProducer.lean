import Mathlib
import TaurusNode.Chain.BlockHeaderState
import TaurusNode.Lib.RoundRobin

/-!
# When a producer's next block is

A model of `block_producer::calculate_next_block_time` and `calculate_producer_wake_up_time`
(plugins/producer_plugin/block_producer.cpp). The producers of the active schedule take
`producer_repetitions` slots each in turn (`block_header_state::get_scheduled_producer`). A
producer's next slot is the first of its own from a minimum on: the slot after the current one,
or later when its watermark, the last block it signed, is ahead of the chain. The code finds it in
closed form, from an unsigned distance between producer indices that relies on wrapping, and
from the minimum slot aligned down to the first of its repetitions.

* `calculateNextBlockTime_eq_earliest`: the time returned is that of the least slot from the
  minimum on that `get_scheduled_producer` gives to the producer, `RoundRobin.isLeast_nextSlot`
  being the closed form's correctness, when that slot fits in `uint32`.
* `wakeUpTime_le`, `wakeUpTime_mem`: the wake-up time is the earliest of the local producers'
  next block times, less one block interval.

Times are `fc::time_point` microseconds, as natural numbers: none of them is before the block
timestamp epoch, so the subtraction of a block interval stays exact. `size_t` arithmetic is
modulo `2 ^ 64` where the code relies on its wrapping (`producer_distance`); the schedule's size
times `producer_repetitions` is not reduced, a schedule being far shorter than `2 ^ 64 / 12`.
-/

namespace Eosio

namespace Chain

/-- `config::block_interval_ms`. -/
def blockIntervalMs : ℕ := 500

/-- `config::block_interval_us`. -/
def blockIntervalUs : ℕ := blockIntervalMs * 1000

/-- `config::block_timestamp_epoch`, in milliseconds. -/
def blockTimestampEpoch : ℕ := 946684800000

/-- `block_timestamp_type(slot).to_time_point()`. -/
def slotToTimePoint (slot : UInt32) : ℕ := (slot.toNat * blockIntervalMs + blockTimestampEpoch) * 1000

end Chain

open Chain

/-- `block_producer::producer_watermark`: a block number and a block timestamp, as its slot. -/
abbrev ProducerWatermark := UInt32 × UInt32

/-- The fields of `block_producer` that the computation reads. -/
structure BlockProducer where
  /-- `_producers`, in the order of the set -/
  producers : List Name
  /-- `_producer_watermarks` -/
  producerWatermarks : List (Name × ProducerWatermark)

namespace BlockProducer

variable (bp : BlockProducer)

/-- `get_watermark(producer)`. -/
def getWatermark (producer : Name) : Option ProducerWatermark :=
  (bp.producerWatermarks.find? fun e => e.1 = producer).map (·.2)

/-- The number of the block being built, or of the head block when none is: the `block_num` of
`calculate_next_block_time`. -/
def buildingBlockNum (hbs : DposHeaderState) (isBuildingBlock : Bool) : UInt32 :=
  if isBuildingBlock then hbs.blockNum + 1 else hbs.blockNum

/-- The `minimum_offset` of `calculate_next_block_time`: at least the next slot, and after the
watermark's block number and timestamp when they are ahead. -/
def minimumOffset (hbs : DposHeaderState) (isBuildingBlock : Bool) (producerName : Name)
    (currentBlockTime : UInt32) : UInt32 :=
  match bp.getWatermark producerName with
  | none => 1
  | some watermark =>
    let blockNum := buildingBlockNum hbs isBuildingBlock
    let minimumOffset : UInt32 := if watermark.1 > blockNum then watermark.1 - blockNum + 1 else 1
    if watermark.2 > currentBlockTime then max minimumOffset (watermark.2 - currentBlockTime + 1)
    else minimumOffset

/-- `calculate_next_block_time(chain, producer_name, current_block_time)`: `none` for a producer
not in the active schedule. -/
def calculateNextBlockTime (hbs : DposHeaderState) (isBuildingBlock : Bool) (producerName : Name)
    (currentBlockTime : UInt32) : Option ℕ := do
  let activeSchedule := hbs.activeSchedule.producers
  let producerIndex ← activeSchedule.idxOf? producerName
  let minimumSlot := currentBlockTime + bp.minimumOffset hbs isBuildingBlock producerName currentBlockTime
  let minimumSlotProducerIndex :=
    minimumSlot.toNat % (activeSchedule.length * producerRepetitions) / producerRepetitions
  if producerIndex = minimumSlotProducerIndex then
    some (slotToTimePoint minimumSlot)
  else
    -- `size_t` subtraction, which wraps when the minimum slot's producer comes later
    let producerDistance := (producerIndex + 2 ^ 64 - minimumSlotProducerIndex) % 2 ^ 64
    let producerDistance :=
      if producerDistance > producerIndex then (producerDistance + activeSchedule.length) % 2 ^ 64
      else producerDistance
    let firstMinimumProducerSlot := minimumSlot - minimumSlot % producerRepetitions.toUInt32
    let nextBlockSlot :=
      UInt32.ofNat (firstMinimumProducerSlot.toNat + producerDistance * producerRepetitions)
    some (slotToTimePoint nextBlockSlot)

/-- One producer of the loop of `calculate_producer_wake_up_time`. -/
def wakeUpStep (hbs : DposHeaderState) (isBuildingBlock : Bool) (refBlockTime : UInt32)
    (wakeUpTime : Option ℕ) (p : Name) : Option ℕ :=
  match bp.calculateNextBlockTime hbs isBuildingBlock p refBlockTime with
  | none => wakeUpTime
  | some nextProducerBlockTime =>
    let producerWakeUpTime := nextProducerBlockTime - blockIntervalUs
    match wakeUpTime with
    | some w => if producerWakeUpTime < w then some producerWakeUpTime else wakeUpTime
    | none => some producerWakeUpTime

/-- `calculate_producer_wake_up_time(chain, ref_block_time)`: a full block interval before the
earliest next block time of the local producers. -/
def calculateProducerWakeUpTime (hbs : DposHeaderState) (isBuildingBlock : Bool)
    (refBlockTime : UInt32) : Option ℕ :=
  bp.producers.foldl (bp.wakeUpStep hbs isBuildingBlock refBlockTime) none

/-! ### The minimum slot -/

/-- The offset of the minimum slot from the current one, in whole numbers: one slot, or past
the watermark's block number and past its slot when they are ahead. -/
def watermarkOffset (watermark : Option ProducerWatermark) (blockNum currentSlot : ℕ) : ℕ :=
  match watermark with
  | none => 1
  | some (wb, ws) =>
    max 1 (max (if blockNum < wb.toNat then wb.toNat - blockNum + 1 else 0)
      (if currentSlot < ws.toNat then ws.toNat - currentSlot + 1 else 0))

variable {bp}

/-- With no wrapping, `minimum_offset` is the watermark offset. -/
theorem minimumOffset_toNat {hbs : DposHeaderState} {isBuildingBlock : Bool} {producerName : Name}
    {t : UInt32} (hfits : t.toNat + watermarkOffset (bp.getWatermark producerName)
      (buildingBlockNum hbs isBuildingBlock).toNat t.toNat < 2 ^ 32) :
    (bp.minimumOffset hbs isBuildingBlock producerName t).toNat =
      watermarkOffset (bp.getWatermark producerName) (buildingBlockNum hbs isBuildingBlock).toNat
        t.toNat := by
  unfold minimumOffset
  revert hfits
  generalize buildingBlockNum hbs isBuildingBlock = bn
  cases bp.getWatermark producerName with
  | none => intro _; rfl
  | some watermark =>
    obtain ⟨wb, ws⟩ := watermark
    intro hfits
    simp only [watermarkOffset, GT.gt, UInt32.lt_iff_toNat_lt] at hfits ⊢
    -- a difference taken only when positive does not underflow; its `+ 1` wraps only past
    -- `2 ^ 32`, which `hfits` excludes
    have hsub : ∀ a b : UInt32, b.toNat < a.toNat →
        (a - b + 1).toNat = (a.toNat - b.toNat + 1) % 2 ^ 32 := by
      intro a b hab
      rw [UInt32.toNat_add, UInt32.toNat_sub_of_le _ _ (UInt32.le_iff_toNat_le.mpr hab.le),
        UInt32.toNat_one]
    rcases Nat.lt_or_ge bn.toNat wb.toNat with hb | hb <;>
      rcases Nat.lt_or_ge t.toNat ws.toNat with hs | hs
    · simp only [hb, hs, if_true, UInt32.toNat_max, hsub _ _ hb, hsub _ _ hs] at hfits ⊢
      omega
    · simp only [hb, if_true, Nat.not_lt.mpr hs, if_false, hsub _ _ hb] at hfits ⊢
      omega
    · simp only [Nat.not_lt.mpr hb, if_false, hs, if_true, UInt32.toNat_max, hsub _ _ hs,
        UInt32.toNat_one] at hfits ⊢
      omega
    · simp only [Nat.not_lt.mpr hb, Nat.not_lt.mpr hs, if_false, UInt32.toNat_one]
      rfl

/-! ### The closed form -/

/-- `std::find_if` of a name in a schedule without duplicates finds its index. -/
theorem idxOf?_eq_of_nodup {α : Type} [DecidableEq α] {l : List α} {i : ℕ} {a : α} (hl : l.Nodup)
    (hi : l[i]? = some a) : l.idxOf? a = some i := by
  obtain ⟨hlt, rfl⟩ := List.getElem?_eq_some_iff.mp hi
  refine List.idxOf?_eq_some_iff.mpr ⟨hlt, rfl, fun j hj heq => ?_⟩
  have := (hl.getElem_inj_iff).mp heq
  omega

/-- The wrapped `size_t` distance, with `+ n` after an underflow, is how far producer `i` is ahead
of producer `k`, modulo `n`. -/
theorem producerDistance_eq {n i k : ℕ} (hi : i < n) (hk : k < n) (hki : k ≠ i) (hk64 : k < 2 ^ 64)
    (hd : (i + n - k) % n < 2 ^ 64) :
    (if (i + 2 ^ 64 - k) % 2 ^ 64 > i then ((i + 2 ^ 64 - k) % 2 ^ 64 + n) % 2 ^ 64
      else (i + 2 ^ 64 - k) % 2 ^ 64) = (i + n - k) % n := by
  rcases Nat.lt_or_gt_of_ne hki with hlt | hgt
  · -- `k < i`: no wrapping
    have hmod : (i + n - k) % n = i - k := by
      rw [show i + n - k = i - k + n by omega, Nat.add_mod_right, Nat.mod_eq_of_lt (by omega)]
    rw [hmod] at hd ⊢
    rw [if_neg (by omega)]
    omega
  · -- `i < k`: the subtraction wraps to past `i`, and adding `n` wraps it back
    have hmod : (i + n - k) % n = i + n - k := Nat.mod_eq_of_lt (by omega)
    rw [hmod] at hd ⊢
    rw [if_pos (by omega)]
    omega

/-- `minimum_slot` aligned down to the first of its repetitions. -/
theorem toNat_alignDown (x : UInt32) :
    (x - x % producerRepetitions.toUInt32).toNat = x.toNat / producerRepetitions * producerRepetitions := by
  have hR : producerRepetitions.toUInt32.toNat = producerRepetitions := rfl
  have hle : x % producerRepetitions.toUInt32 ≤ x :=
    UInt32.le_iff_toNat_le.mpr (by rw [UInt32.toNat_mod]; exact Nat.mod_le _ _)
  rw [UInt32.toNat_sub_of_le _ _ hle, UInt32.toNat_mod, hR]
  have := Nat.mod_add_div x.toNat producerRepetitions
  rw [Nat.mul_comm] at this
  omega

/-- **The next block time is the earliest.** For a producer at index `i` of an active schedule
of distinct producers, the time `calculate_next_block_time` returns is that of the least slot from
the current slot plus the watermark offset on that the schedule gives to the producer, when that
slot fits in `uint32`; and `get_scheduled_producer` gives that slot to the producer. -/
theorem calculateNextBlockTime_eq_earliest (bp : BlockProducer) (hbs : DposHeaderState)
    (isBuildingBlock : Bool) (p : Name) (i : ℕ) (t : UInt32) (s : ℕ)
    (hdistinct : hbs.activeSchedule.producers.Nodup)
    (hi : hbs.activeSchedule.producers[i]? = some p)
    (hs : IsLeast (RoundRobin.slotsFrom hbs.activeSchedule.producers.length producerRepetitions i
      (t.toNat + watermarkOffset (bp.getWatermark p) (buildingBlockNum hbs isBuildingBlock).toNat
        t.toNat)) s)
    (hfits : s < 2 ^ 32) :
    bp.calculateNextBlockTime hbs isBuildingBlock p t = some (slotToTimePoint (UInt32.ofNat s)) ∧
      hbs.getScheduledProducer (UInt32.ofNat s) = p := by
  have hin : i < hbs.activeSchedule.producers.length := (List.getElem?_eq_some_iff.mp hi).1
  have hofNat : (UInt32.ofNat s).toNat = s := UInt32.toNat_ofNat_of_lt' hfits
  refine ⟨?_, ?_⟩
  · have hms := hs.1.1
    -- no `uint32` sum wraps on the way to the minimum slot
    have hmin : (t + bp.minimumOffset hbs isBuildingBlock p t).toNat = t.toNat +
        watermarkOffset (bp.getWatermark p) (buildingBlockNum hbs isBuildingBlock).toNat t.toNat := by
      rw [UInt32.toNat_add, minimumOffset_toNat (by omega)]
      exact Nat.mod_eq_of_lt (by omega)
    -- the least slot is the closed form
    have hnext := hs.unique (RoundRobin.isLeast_nextSlot (by decide) hin _)
    simp only [calculateNextBlockTime, idxOf?_eq_of_nodup hdistinct hi, Option.bind_eq_bind,
      Option.bind_some, toNat_alignDown, hmin]
    generalize t + bp.minimumOffset hbs isBuildingBlock p t = M at hmin ⊢
    generalize t.toNat + watermarkOffset (bp.getWatermark p) (buildingBlockNum hbs isBuildingBlock).toNat
      t.toNat = m at hms hmin hnext ⊢
    generalize hbs.activeSchedule.producers.length = n at hin hnext ⊢
    have hR : 0 < producerRepetitions := by decide
    rw [show m % (n * producerRepetitions) / producerRepetitions = m / producerRepetitions % n from
      RoundRobin.owner_eq m]
    unfold RoundRobin.nextSlot at hnext
    rw [RoundRobin.owner_eq] at hnext
    split
    · next howner =>
      -- the minimum slot is the producer's own
      rw [if_pos howner.symm] at hnext
      have hM : M = UInt32.ofNat s := UInt32.toNat_inj.mp (by rw [hmin, hofNat, hnext])
      rw [hM]
    · next howner =>
      -- otherwise the producer's first slot is `distance` repetitions after the aligned minimum
      rw [if_neg (Ne.symm howner)] at hnext
      have hk64 : m / producerRepetitions % n < 2 ^ 64 := by
        have := Nat.mod_le (m / producerRepetitions) n
        have := Nat.div_le_self m producerRepetitions
        omega
      have hd : RoundRobin.distance n (m / producerRepetitions) i < 2 ^ 64 := by
        have : RoundRobin.distance n (m / producerRepetitions) i ≤ s := by
          rw [hnext]
          exact (Nat.le_add_left _ _).trans (Nat.le_mul_of_pos_right _ hR)
        omega
      rw [producerDistance_eq hin (Nat.mod_lt _ (by omega)) (Ne.symm howner) hk64 hd, hnext,
        Nat.add_mul]
      rfl
  · -- `get_scheduled_producer` reads the producer at the slot's owner
    have howner : s % (hbs.activeSchedule.producers.length * producerRepetitions) /
        producerRepetitions = i := hs.1.2
    simp only [DposHeaderState.getScheduledProducer, hofNat, howner, List.getD_eq_getElem?_getD, hi,
      Option.getD_some]

/-- A head block state with two producers. -/
def twoProducerState : DposHeaderState where
  blockNum := 10
  timestamp := 100
  dposProposedIrreversibleBlocknum := 0
  dposIrreversibleBlocknum := 0
  activeSchedule := ⟨1, [⟨1⟩, ⟨2⟩]⟩
  producerToLastProduced := []
  producerToLastImpliedIrb := []
  confirmCount := []
  pendingSchedule := ⟨0, ⟨0, []⟩⟩

/-- A node producing for the second producer, which signed block 12 at slot 130. -/
def watermarkedProducer : BlockProducer := ⟨[⟨2⟩], [(⟨2⟩, (12, 130))]⟩

/-- At slot 100, building block 11, the watermark asks for slot 131 or later, which is the first
producer's; the second's next slot is 132. -/
theorem calculateNextBlockTime_eq_earliest_watermarked :
    watermarkedProducer.calculateNextBlockTime twoProducerState true ⟨2⟩ 100 =
        some (slotToTimePoint (UInt32.ofNat 132)) ∧
      twoProducerState.getScheduledProducer (UInt32.ofNat 132) = ⟨2⟩ :=
  calculateNextBlockTime_eq_earliest watermarkedProducer twoProducerState true ⟨2⟩ 1 100 132
    (by decide) rfl (RoundRobin.isLeast_nextSlot (by decide) (by decide) _) (by decide)

/-! ### The wake-up time -/

section WakeUp

variable (bp) (hbs : DposHeaderState) (isBuildingBlock : Bool) (refBlockTime : UInt32)

/-- One producer leaves the wake-up time or replaces it with its own. -/
theorem wakeUpStep_cases (acc : Option ℕ) (p : Name) :
    bp.wakeUpStep hbs isBuildingBlock refBlockTime acc p = acc ∨
      ∃ next, bp.calculateNextBlockTime hbs isBuildingBlock p refBlockTime = some next ∧
        bp.wakeUpStep hbs isBuildingBlock refBlockTime acc p = some (next - blockIntervalUs) := by
  unfold wakeUpStep
  split
  · exact .inl rfl
  · next next hnext =>
    split
    · dsimp only
      split
      · exact .inr ⟨next, hnext, rfl⟩
      · exact .inl rfl
    · exact .inr ⟨next, hnext, rfl⟩

/-- It is no later than the wake-up time so far. -/
theorem wakeUpStep_le_acc (a : ℕ) (p : Name) :
    ∃ b, bp.wakeUpStep hbs isBuildingBlock refBlockTime (some a) p = some b ∧ b ≤ a := by
  unfold wakeUpStep
  split
  · exact ⟨a, rfl, le_rfl⟩
  · dsimp only
    split
    · next hlt => exact ⟨_, rfl, hlt.le⟩
    · exact ⟨a, rfl, le_rfl⟩

/-- It is no later than the producer's own. -/
theorem wakeUpStep_le_next (acc : Option ℕ) {p : Name} {next : ℕ}
    (hnext : bp.calculateNextBlockTime hbs isBuildingBlock p refBlockTime = some next) :
    ∃ b, bp.wakeUpStep hbs isBuildingBlock refBlockTime acc p = some b ∧
      b ≤ next - blockIntervalUs := by
  unfold wakeUpStep
  rw [hnext]
  cases acc with
  | none => exact ⟨_, rfl, le_rfl⟩
  | some w =>
    dsimp only
    split
    · exact ⟨_, rfl, le_rfl⟩
    · next hge => exact ⟨w, rfl, Nat.le_of_not_lt hge⟩

/-- The loop of `calculate_producer_wake_up_time`, from any start: its result is no later than the
start and than each producer's next block time less an interval, and is one of them. -/
theorem foldl_wakeUpStep (ps : List Name) (acc : Option ℕ) {w : ℕ}
    (hw : ps.foldl (bp.wakeUpStep hbs isBuildingBlock refBlockTime) acc = some w) :
    (∀ a, acc = some a → w ≤ a) ∧
      (∀ p ∈ ps, ∀ next, bp.calculateNextBlockTime hbs isBuildingBlock p refBlockTime = some next →
        w ≤ next - blockIntervalUs) ∧
      (acc = some w ∨ ∃ p ∈ ps, ∃ next,
        bp.calculateNextBlockTime hbs isBuildingBlock p refBlockTime = some next ∧
          w = next - blockIntervalUs) := by
  induction ps generalizing acc with
  | nil => exact ⟨fun a ha => by simp_all, nofun, .inl hw⟩
  | cons p ps ih =>
    -- the rest of the loop starts from this producer's step
    obtain ⟨hacc, hps, hmem⟩ := ih _ hw
    refine ⟨fun a ha => ?_, fun q hq next hnext => ?_, ?_⟩
    · subst ha
      obtain ⟨b, hb, hba⟩ := bp.wakeUpStep_le_acc hbs isBuildingBlock refBlockTime a p
      exact (hacc b hb).trans hba
    · rcases List.mem_cons.mp hq with rfl | hq
      · obtain ⟨b, hb, hbn⟩ := bp.wakeUpStep_le_next hbs isBuildingBlock refBlockTime acc hnext
        exact (hacc b hb).trans hbn
      · exact hps q hq next hnext
    · rcases hmem with hstep | ⟨q, hq, next, hnext, hwq⟩
      · rcases bp.wakeUpStep_cases hbs isBuildingBlock refBlockTime acc p with heq | ⟨next, hnext, heq⟩
        · exact .inl (heq ▸ hstep)
        · rw [heq] at hstep
          exact .inr ⟨p, List.mem_cons_self, next, hnext, (Option.some.inj hstep).symm⟩
      · exact .inr ⟨q, List.mem_cons_of_mem p hq, next, hnext, hwq⟩

/-- The wake-up time is no later than any local producer's next block time, less an interval. -/
theorem wakeUpTime_le {w : ℕ}
    (hw : bp.calculateProducerWakeUpTime hbs isBuildingBlock refBlockTime = some w) {p : Name}
    (hp : p ∈ bp.producers) {next : ℕ}
    (hnext : bp.calculateNextBlockTime hbs isBuildingBlock p refBlockTime = some next) :
    w ≤ next - blockIntervalUs :=
  (bp.foldl_wakeUpStep hbs isBuildingBlock refBlockTime bp.producers none hw).2.1 p hp next hnext

/-- And it is one of them. -/
theorem wakeUpTime_mem {w : ℕ}
    (hw : bp.calculateProducerWakeUpTime hbs isBuildingBlock refBlockTime = some w) :
    ∃ p ∈ bp.producers, ∃ next,
      bp.calculateNextBlockTime hbs isBuildingBlock p refBlockTime = some next ∧
        w = next - blockIntervalUs := by
  rcases (bp.foldl_wakeUpStep hbs isBuildingBlock refBlockTime bp.producers none hw).2.2 with h | h
  · cases h
  · exact h

end WakeUp

end BlockProducer

end Eosio
