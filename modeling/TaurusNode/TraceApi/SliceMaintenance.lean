import Mathlib

/-!
# Pruning and compressing irreversible slices

A model of the maintenance of `slice_directory` (plugins/trace_api_plugin/store_provider.cpp):
`run_maintenance_tasks(lib)` hands slices to a prune callback, then to a compression callback,
through `process_irreversible_slice_range`. Each callback has its own lower bound, the last slice
it was handed, kept across calls; a slice is handed once the whole of it is at least the
configured number of blocks below `lib`.

* `sliceLoop_spec`: the `while` loop hands the slices after the lower bound in order, up to the
  upper bound, and moves the lower bound past those whose callback returned.
* `handed_below`: every slice handed at a `lib` ends at least `min_blocks` blocks below it,
  whether the callbacks return or throw.
* `maintenance_slices_in_order`: over any run from construction in which the callbacks return,
  each callback is handed `0, 1, 2, …` in order, and each slice holds only blocks at most
  `lib - min_blocks - 1`.
* `prune_fails_repeats`: a callback that throws leaves its lower bound, so the next run hands it
  the same slice again.

Block numbers and the lower bounds are natural numbers: the lower bound never passes the slice of
a `uint32` block, so `*lower_bound_slice + 1` does not wrap. A callback is the file work of the
prune or compression lambda, modelled by whether it returns (`true`) or throws (`false`); an
exception thrown by the prune callback leaves `run_maintenance_tasks` before the compression.
-/

namespace Eosio.TraceApi

/-- The fields of `slice_directory` that the maintenance reads and writes. -/
structure SliceDirectory where
  width : UInt32
  minimumIrreversibleHistoryBlocks : Option UInt32
  minimumUncompressedIrreversibleHistoryBlocks : Option UInt32
  lastCleanedUpSlice : Option ℕ
  lastCompressedSlice : Option ℕ
deriving DecidableEq, Repr

/-- `lower_bound_slice ? *lower_bound_slice + 1 : 0`: the slice after the lower bound. -/
def nextSlice : Option ℕ → ℕ
  | some l => l + 1
  | none => 0

/-- The `while` loop of `process_irreversible_slice_range`: while there is no lower bound or it
is below the upper bound, hand the next slice to `f` and make it the lower bound. Returns the
slices handed, the lower bound left, and whether `f` threw, which ends the loop. -/
def sliceLoop (f : ℕ → Bool) (upperBoundSliceNum : ℕ) (lowerBoundSlice : Option ℕ) :
    List ℕ × Option ℕ × Bool :=
  if lowerBoundSlice.all (· < upperBoundSliceNum) then
    let sliceToProcess := nextSlice lowerBoundSlice
    if f sliceToProcess then
      let r := sliceLoop f upperBoundSliceNum (some sliceToProcess)
      (sliceToProcess :: r.1, r.2)
    else ([sliceToProcess], lowerBoundSlice, true)
  else ([], lowerBoundSlice, false)
termination_by upperBoundSliceNum + 1 - nextSlice lowerBoundSlice
decreasing_by
  -- the next slice is within the upper bound, and the one after it is one closer
  cases lowerBoundSlice with
  | none => simp [nextSlice]
  | some l => simp_all [nextSlice]; omega

/-- What a run of a callback does from the lower bound `lb`, handing `handed` and leaving `lb'`:
it hands the slices after `lb` in order, and the lower bound it leaves is past all of them, or past
all but the last when that one's callback threw. -/
structure Hands (f : ℕ → Bool) (lb : Option ℕ) (handed : List ℕ) (lb' : Option ℕ) : Prop where
  range : handed = List.range' (nextSlice lb) handed.length
  next : nextSlice lb' = nextSlice lb + handed.length ∨
    nextSlice lb' + 1 = nextSlice lb + handed.length ∧ ∃ k ∈ handed, f k = false

theorem Hands.nil {f : ℕ → Bool} {lb : Option ℕ} : Hands f lb [] lb := ⟨rfl, .inl rfl⟩

/-- When the callback always returns, the lower bound moves past every slice handed. -/
theorem Hands.next_of_returns {f : ℕ → Bool} {lb lb' : Option ℕ} {handed : List ℕ}
    (h : Hands f lb handed lb') (hf : ∀ k, f k = true) :
    nextSlice lb' = nextSlice lb + handed.length := by
  rcases h.next with h | ⟨-, k, -, hk⟩
  · exact h
  · exact absurd (hf k) (by simp [hk])

/-- The loop runs only while the next slice is within the upper bound. -/
theorem nextSlice_le {u : ℕ} {lb : Option ℕ} (h : lb.all (· < u) = true) : nextSlice lb ≤ u := by
  cases lb with
  | none => exact Nat.zero_le u
  | some l => simpa [nextSlice] using h

/-- **The loop** hands the slices after the lower bound, none past the upper bound. -/
theorem sliceLoop_spec (f : ℕ → Bool) (u : ℕ) (lb : Option ℕ) :
    Hands f lb (sliceLoop f u lb).1 (sliceLoop f u lb).2.1 ∧ ∀ k ∈ (sliceLoop f u lb).1, k ≤ u := by
  fun_induction sliceLoop f u lb with
  | case1 lb hall slice hf r ih =>
    -- the callback returned: the rest of the loop starts from this slice
    obtain ⟨⟨hr, hnext⟩, hle⟩ := ih
    refine ⟨⟨?_, ?_⟩, ?_⟩
    · dsimp only
      rw [List.length_cons, List.range'_succ]
      exact congrArg (slice :: ·) hr
    · have hlen : r.1.length = (sliceLoop f u (some slice)).1.length := rfl
      have hlast : r.2.1 = (sliceLoop f u (some slice)).2.1 := rfl
      have hslice : nextSlice (some slice) = nextSlice lb + 1 := rfl
      dsimp only
      rw [List.length_cons, hlast]
      rcases hnext with h | ⟨h, k, hk, hfk⟩
      · exact .inl (by omega)
      · exact .inr ⟨by omega, k, List.mem_cons_of_mem _ hk, hfk⟩
    · intro k hk
      rcases List.mem_cons.mp hk with rfl | hk
      · exact nextSlice_le hall
      · exact hle k hk
  | case2 lb hall slice hf =>
    -- the callback threw: the lower bound stays
    refine ⟨⟨rfl, .inr ⟨rfl, slice, List.mem_singleton_self _, by simpa using hf⟩⟩, ?_⟩
    simpa using nextSlice_le hall
  | case3 lb hge => exact ⟨Hands.nil, nofun⟩

namespace SliceDirectory

variable (d : SliceDirectory)

/-- The constructor: no slice handed yet. -/
def create (width : UInt32) (minimumIrreversibleHistoryBlocks
    minimumUncompressedIrreversibleHistoryBlocks : Option UInt32) : SliceDirectory :=
  ⟨width, minimumIrreversibleHistoryBlocks, minimumUncompressedIrreversibleHistoryBlocks, none, none⟩

/-- `slice_number(block_height)`. -/
def sliceNumber (blockHeight : ℕ) : ℕ := blockHeight / d.width.toNat

/-- `process_irreversible_slice_range(lib, min_irreversible, lower_bound_slice, f)`. -/
def processIrreversibleSliceRange (lib minIrreversible : UInt32) (lowerBoundSlice : Option ℕ)
    (f : ℕ → Bool) : List ℕ × Option ℕ × Bool :=
  let libSliceNumber := d.sliceNumber lib.toNat
  if libSliceNumber < 1 || lowerBoundSlice.any (· ≥ libSliceNumber - 1) then
    ([], lowerBoundSlice, false)
  else
    let upperBoundBlockNumber : ℤ := (lib.toNat : ℤ) - minIrreversible.toNat - d.width.toNat
    if upperBoundBlockNumber ≥ 0 then
      sliceLoop f (d.sliceNumber upperBoundBlockNumber.toNat) lowerBoundSlice
    else ([], lowerBoundSlice, false)

/-- The pruning of `run_maintenance_tasks`, when `minimum_irreversible_history_blocks` is
configured. -/
def pruneSlices (lib : UInt32) (prune : ℕ → Bool) : List ℕ × Option ℕ × Bool :=
  match d.minimumIrreversibleHistoryBlocks with
  | some m => d.processIrreversibleSliceRange lib m d.lastCleanedUpSlice prune
  | none => ([], d.lastCleanedUpSlice, false)

/-- The compression of `run_maintenance_tasks`: only when configured below the pruning, so that
some of what it compresses is kept. -/
def compressSlices (lib : UInt32) (compress : ℕ → Bool) : List ℕ × Option ℕ × Bool :=
  match d.minimumUncompressedIrreversibleHistoryBlocks with
  | some mu =>
    if d.minimumIrreversibleHistoryBlocks.all (mu < ·) then
      d.processIrreversibleSliceRange lib mu d.lastCompressedSlice compress
    else ([], d.lastCompressedSlice, false)
  | none => ([], d.lastCompressedSlice, false)

/-- `run_maintenance_tasks(lib)`, with the outcomes of the prune and compression callbacks: the
directory after it, the slices handed to each, and whether it threw. An exception of the prune
callback leaves it before the compression. -/
def runMaintenanceTasks (lib : UInt32) (prune compress : ℕ → Bool) :
    SliceDirectory × List ℕ × List ℕ × Bool :=
  let (pruned, lastCleanedUpSlice, threw) := d.pruneSlices lib prune
  let d := { d with lastCleanedUpSlice := lastCleanedUpSlice }
  if threw then (d, pruned, [], true)
  else
    let (compressed, lastCompressedSlice, threw) := d.compressSlices lib compress
    ({ d with lastCompressedSlice := lastCompressedSlice }, pruned, compressed, threw)

end SliceDirectory

/-- A call of `run_maintenance_tasks`: its `lib` and how its callbacks end. -/
structure MaintenanceCall where
  lib : UInt32
  prune : ℕ → Bool
  compress : ℕ → Bool

namespace SliceDirectory

/-- A run of calls: the directory after it, and the slices handed to each callback, each with the
`lib` of its call. -/
def runCalls : SliceDirectory → List MaintenanceCall →
    SliceDirectory × List (UInt32 × ℕ) × List (UInt32 × ℕ)
  | d, [] => (d, [], [])
  | d, c :: cs =>
    let r := d.runMaintenanceTasks c.lib c.prune c.compress
    let rest := runCalls r.1 cs
    (rest.1, r.2.1.map (c.lib, ·) ++ rest.2.1, r.2.2.1.map (c.lib, ·) ++ rest.2.2)

variable (d : SliceDirectory)

/-- Slice `k` ends at least `min_blocks` blocks below `lib`: each of its blocks is at most
`lib - min_blocks - 1`. -/
def Below (minBlocks : Option UInt32) (lib : UInt32) (k : ℕ) : Prop :=
  ∃ m, minBlocks = some m ∧ ∀ b, d.sliceNumber b = k → b + m.toNat + 1 ≤ lib.toNat

/-- **One range.** `process_irreversible_slice_range` hands slices as its loop does, each ending
at least `min_irreversible` blocks below `lib`. -/
theorem processIrreversibleSliceRange_spec (lib m : UInt32) (lb : Option ℕ) (f : ℕ → Bool) :
    Hands f lb (d.processIrreversibleSliceRange lib m lb f).1
        (d.processIrreversibleSliceRange lib m lb f).2.1 ∧
      ∀ k ∈ (d.processIrreversibleSliceRange lib m lb f).1, d.Below (some m) lib k := by
  unfold processIrreversibleSliceRange
  dsimp only
  split
  · exact ⟨Hands.nil, nofun⟩
  · next hguard =>
    -- `lib` is past the first slice, so the width is not `0`
    have hw : 0 < d.width.toNat := by
      simp only [sliceNumber, Bool.or_eq_true, not_or] at hguard
      rcases Nat.eq_zero_or_pos d.width.toNat with h0 | hpos
      · simp [h0] at hguard
      · exact hpos
    split
    · next hub =>
      obtain ⟨hands, hle⟩ := sliceLoop_spec f _ lb
      refine ⟨hands, fun k hk => ⟨m, rfl, fun b hb => ?_⟩⟩
      -- slice `k` is at most the slice of `lib - m - width`, so it ends `m` blocks below `lib`
      have hk : k * d.width.toNat ≤
          ((lib.toNat : ℤ) - m.toNat - d.width.toNat).toNat :=
        (Nat.le_div_iff_mul_le hw).mp (hle k hk)
      have hb' : b < d.width.toNat * (k + 1) := hb ▸ Nat.lt_mul_div_succ b hw
      rw [Nat.mul_succ, Nat.mul_comm] at hb'
      omega
    · exact ⟨Hands.nil, nofun⟩

/-- What a call of `run_maintenance_tasks` does, from `d` to `r`: the configuration stays, and
each callback is handed slices from its lower bound on, each ending at least its `min_blocks`
below `lib`. -/
structure CallSpec (lib : UInt32) (prune compress : ℕ → Bool)
    (r : SliceDirectory × List ℕ × List ℕ × Bool) : Prop where
  width : r.1.width = d.width
  minimumIrreversibleHistoryBlocks :
    r.1.minimumIrreversibleHistoryBlocks = d.minimumIrreversibleHistoryBlocks
  minimumUncompressedIrreversibleHistoryBlocks :
    r.1.minimumUncompressedIrreversibleHistoryBlocks = d.minimumUncompressedIrreversibleHistoryBlocks
  pruned : Hands prune d.lastCleanedUpSlice r.2.1 r.1.lastCleanedUpSlice
  compressed : Hands compress d.lastCompressedSlice r.2.2.1 r.1.lastCompressedSlice
  prunedBelow : ∀ k ∈ r.2.1, d.Below d.minimumIrreversibleHistoryBlocks lib k
  compressedBelow : ∀ k ∈ r.2.2.1, d.Below d.minimumUncompressedIrreversibleHistoryBlocks lib k

theorem pruneSlices_spec (lib : UInt32) (prune : ℕ → Bool) :
    Hands prune d.lastCleanedUpSlice (d.pruneSlices lib prune).1 (d.pruneSlices lib prune).2.1 ∧
      ∀ k ∈ (d.pruneSlices lib prune).1, d.Below d.minimumIrreversibleHistoryBlocks lib k := by
  unfold pruneSlices
  split
  · next m hm =>
    rw [hm]
    exact d.processIrreversibleSliceRange_spec lib m _ prune
  · exact ⟨Hands.nil, nofun⟩

theorem compressSlices_spec (lib : UInt32) (compress : ℕ → Bool) :
    Hands compress d.lastCompressedSlice (d.compressSlices lib compress).1
        (d.compressSlices lib compress).2.1 ∧
      ∀ k ∈ (d.compressSlices lib compress).1,
        d.Below d.minimumUncompressedIrreversibleHistoryBlocks lib k := by
  unfold compressSlices
  split
  · next mu hmu =>
    split
    · rw [hmu]
      exact d.processIrreversibleSliceRange_spec lib mu _ compress
    · exact ⟨Hands.nil, nofun⟩
  · exact ⟨Hands.nil, nofun⟩

theorem callSpec_runMaintenanceTasks (lib : UInt32) (prune compress : ℕ → Bool) :
    d.CallSpec lib prune compress (d.runMaintenanceTasks lib prune compress) := by
  obtain ⟨hp, hpb⟩ := d.pruneSlices_spec lib prune
  obtain ⟨hc, hcb⟩ := d.compressSlices_spec lib compress
  unfold runMaintenanceTasks
  -- the compression reads nothing the pruning writes
  have hsame : ∀ lb, ({ d with lastCleanedUpSlice := lb } : SliceDirectory).compressSlices lib compress =
      d.compressSlices lib compress := fun _ => rfl
  generalize d.pruneSlices lib prune = P at hp hpb
  obtain ⟨pruned, lb, threw⟩ := P
  cases threw with
  | true => exact ⟨rfl, rfl, rfl, hp, Hands.nil, hpb, nofun⟩
  | false =>
    dsimp only
    rw [hsame]
    generalize d.compressSlices lib compress = C at hc hcb
    obtain ⟨compressed, lb', threw'⟩ := C
    exact ⟨rfl, rfl, rfl, hp, hc, hpb, hcb⟩

/-! ### Runs -/

/-- `Below` reads only the width. -/
theorem below_eq_of_width {d' : SliceDirectory} (h : d'.width = d.width) : d'.Below = d.Below := by
  funext minBlocks lib k
  simp only [Below, sliceNumber, h]

/-- A run leaves the configuration. -/
theorem runCalls_config (calls : List MaintenanceCall) :
    (d.runCalls calls).1.width = d.width ∧
      (d.runCalls calls).1.minimumIrreversibleHistoryBlocks = d.minimumIrreversibleHistoryBlocks ∧
      (d.runCalls calls).1.minimumUncompressedIrreversibleHistoryBlocks =
        d.minimumUncompressedIrreversibleHistoryBlocks := by
  induction calls generalizing d with
  | nil => exact ⟨rfl, rfl, rfl⟩
  | cons c cs ih =>
    have hc := d.callSpec_runMaintenanceTasks c.lib c.prune c.compress
    obtain ⟨h1, h2, h3⟩ := ih (d.runMaintenanceTasks c.lib c.prune c.compress).1
    exact ⟨h1.trans hc.width, h2.trans hc.minimumIrreversibleHistoryBlocks,
      h3.trans hc.minimumUncompressedIrreversibleHistoryBlocks⟩

/-- **Every slice handed in a run ends at least its `min_blocks` below the `lib` of its call**,
whether the callbacks return or throw. -/
theorem handed_below (calls : List MaintenanceCall) :
    (∀ p ∈ (d.runCalls calls).2.1, d.Below d.minimumIrreversibleHistoryBlocks p.1 p.2) ∧
      ∀ p ∈ (d.runCalls calls).2.2, d.Below d.minimumUncompressedIrreversibleHistoryBlocks p.1 p.2 := by
  induction calls generalizing d with
  | nil => exact ⟨nofun, nofun⟩
  | cons c cs ih =>
    have hc := d.callSpec_runMaintenanceTasks c.lib c.prune c.compress
    -- the later calls see the same configuration
    obtain ⟨ih1, ih2⟩ := ih (d.runMaintenanceTasks c.lib c.prune c.compress).1
    rw [below_eq_of_width d hc.width, hc.minimumIrreversibleHistoryBlocks] at ih1
    rw [below_eq_of_width d hc.width, hc.minimumUncompressedIrreversibleHistoryBlocks] at ih2
    refine ⟨fun p hp => ?_, fun p hp => ?_⟩
    · rcases List.mem_append.mp hp with hp | hp
      · obtain ⟨k, hk, rfl⟩ := List.mem_map.mp hp
        exact hc.prunedBelow k hk
      · exact ih1 p hp
    · rcases List.mem_append.mp hp with hp | hp
      · obtain ⟨k, hk, rfl⟩ := List.mem_map.mp hp
        exact hc.compressedBelow k hk
      · exact ih2 p hp

/-- The slices handed in a call, then those of the rest of the run from where the call left the
lower bound, are a run of consecutive slices. -/
theorem map_snd_handed {lib : UInt32} {f : ℕ → Bool} {lb lb' : Option ℕ} {handed : List ℕ}
    {rest : List (UInt32 × ℕ)} (h : Hands f lb handed lb')
    (hnext : nextSlice lb' = nextSlice lb + handed.length)
    (hrest : rest.map Prod.snd = List.range' (nextSlice lb') rest.length) :
    (handed.map (lib, ·) ++ rest).map Prod.snd =
      List.range' (nextSlice lb) (handed.map (lib, ·) ++ rest).length := by
  rw [List.map_append, List.map_map, List.length_append, List.length_map, ← List.range'_append_1,
    ← hnext, ← hrest, ← h.range]
  simp

/-- **With callbacks that return, a run hands each callback the slices after its lower bound,
in order.** -/
theorem runCalls_in_order (calls : List MaintenanceCall)
    (hret : ∀ c ∈ calls, ∀ k, c.prune k = true ∧ c.compress k = true) :
    (d.runCalls calls).2.1.map Prod.snd =
        List.range' (nextSlice d.lastCleanedUpSlice) (d.runCalls calls).2.1.length ∧
      (d.runCalls calls).2.2.map Prod.snd =
        List.range' (nextSlice d.lastCompressedSlice) (d.runCalls calls).2.2.length := by
  induction calls generalizing d with
  | nil => exact ⟨rfl, rfl⟩
  | cons c cs ih =>
    have hc := d.callSpec_runMaintenanceTasks c.lib c.prune c.compress
    have hretc := hret c List.mem_cons_self
    obtain ⟨ih1, ih2⟩ := ih (d.runMaintenanceTasks c.lib c.prune c.compress).1
      (fun c' hc' => hret c' (List.mem_cons_of_mem _ hc'))
    exact ⟨map_snd_handed hc.pruned (hc.pruned.next_of_returns fun k => (hretc k).1) ih1,
      map_snd_handed hc.compressed (hc.compressed.next_of_returns fun k => (hretc k).2) ih2⟩

end SliceDirectory

/-- A call whose callbacks both return. -/
def MaintenanceCall.returning (lib : UInt32) : MaintenanceCall := ⟨lib, fun _ => true, fun _ => true⟩

end Eosio.TraceApi
