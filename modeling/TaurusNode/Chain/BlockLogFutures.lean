import Mathlib
import TaurusNode.Chain.BlockLog

/-!
# Appending through futures

`log_irreversible` creates the futures of a whole branch before it appends the
first of them. `create_append_future` reads and writes `future_version` alone,
which no append reads or writes, so creating every future first is the same as
creating each one right before its append (`logIrreversible_eq_foldlM`).

The synchronous `append` encodes a block in the version of the file it goes
into. A future encodes in `future_version`, which follows the version of the
current file (`FormatsAgree`: the constructor and `reset` start it there),
except at a block whose number is a multiple of the stride: there the future
switches to the latest version already, while the block itself still goes into
the current file and only the blocks after it go into the new files.

So the two appends write the same files as long as no such block meets a file
of an encoding older than the latest (`logIrreversible_contents`). On a file of
version 3 or below, the block at the next multiple of the stride is written in
the pruned encoding into a file whose preamble keeps the old version, and
`read_block_by_num` cannot read it back (`logIrreversible_legacy_divergence`).
-/

namespace Eosio.Chain

namespace BlockLog

variable {B : Type}

/-- `future_version` encodes as the current file does. -/
def FormatsAgree (log : BlockLog B) : Prop :=
  entryFormat log.futureVersion = entryFormat log.file.preamble.version

theorem formatsAgree_ofFile (stride : ℕ) (h : 0 < stride) (catalog : List (CatalogEntry B))
    (file : LogFile B) : (ofFile stride h catalog file).FormatsAgree :=
  rfl

theorem formatsAgree_reset (log : BlockLog B) (defaultVersion firstBnum : UInt32) :
    (log.reset defaultVersion firstBnum).FormatsAgree :=
  rfl

@[simp] theorem entryFormat_maxSupportedVersion :
    entryFormat maxSupportedVersion = .prunedBlock :=
  rfl

variable (blockNum : B → UInt32)

/-! ### One append -/

/-- What a successful write does: both checks pass, and the entry is appended, followed by a split
at a multiple of the stride. -/
theorem writeBlock_eq_some {log log' : BlockLog B} {b : B} {buffer : BlockBuffer B}
    (h : log.writeBlock blockNum b buffer = some log') :
    log.genesisWrittenToBlockLog = true ∧
      log.file.entries.length = (blockNum b - log.file.preamble.firstBlockNum).toNat ∧
      log' = if (blockNum b).toNat % log.stride = 0 then
          ({ log with
            file := { log.file with entries := log.file.entries ++ [buffer] }
            head := some b } : BlockLog B).splitLog (blockNum b)
        else
          { log with
            file := { log.file with entries := log.file.entries ++ [buffer] }
            head := some b } := by
  unfold writeBlock at h
  split at h
  · cases h
  rename_i hgenesis
  split at h
  · cases h
  rename_i hpos
  refine ⟨by simpa using hgenesis, by simpa using hpos, ?_⟩
  dsimp only at h
  split at h
  · rename_i hmul
    cases h
    rw [if_pos hmul]
  · rename_i hmul
    cases h
    rw [if_neg hmul]

theorem writeBlock_stride {log log' : BlockLog B} {b : B} {buffer : BlockBuffer B}
    (h : log.writeBlock blockNum b buffer = some log') : log'.stride = log.stride := by
  obtain ⟨-, -, rfl⟩ := writeBlock_eq_some blockNum h
  split <;> rfl

/-- The file after a write has the latest version when the block was at a multiple of the stride,
and the version it had otherwise. -/
theorem writeBlock_version {log log' : BlockLog B} {b : B} {buffer : BlockBuffer B}
    (h : log.writeBlock blockNum b buffer = some log') :
    log'.file.preamble.version = if (blockNum b).toNat % log.stride = 0 then maxSupportedVersion
      else log.file.preamble.version := by
  obtain ⟨-, -, rfl⟩ := writeBlock_eq_some blockNum h
  split <;> rfl

/-- A write neither reads nor changes `future_version`. -/
theorem writeBlock_withFutureVersion (log : BlockLog B) (v : UInt32) (b : B)
    (buffer : BlockBuffer B) :
    writeBlock blockNum { log with futureVersion := v } b buffer =
      (log.writeBlock blockNum b buffer).map fun log' => { log' with futureVersion := v } := by
  unfold writeBlock
  dsimp only
  split
  · rfl
  split
  · rfl
  split <;> rfl

theorem appendFutures_withFutureVersion (v : UInt32) :
    ∀ (log : BlockLog B) (fs : List (B × BlockBuffer B)),
      appendFutures blockNum { log with futureVersion := v } fs =
        (log.appendFutures blockNum fs).map fun log' => { log' with futureVersion := v }
  | log, [] => rfl
  | log, f :: fs => by
    simp only [appendFutures, List.foldlM_cons] at *
    rw [appendFuture, appendFuture, writeBlock_withFutureVersion]
    cases log.writeBlock blockNum f.1 f.2 with
    | none => rfl
    | some log' => exact appendFutures_withFutureVersion v log' fs

/-! ### Creating the futures -/

/-- The futures and the last `future_version` depend on the log only through its stride and
`future_version`, and nothing but `future_version` changes. -/
theorem createAppendFutures_of_eq :
    ∀ (bs : List B) (log log' : BlockLog B), log'.stride = log.stride →
      log'.futureVersion = log.futureVersion →
      log'.createAppendFutures blockNum bs =
        ({ log' with futureVersion := (log.createAppendFutures blockNum bs).1.futureVersion },
          (log.createAppendFutures blockNum bs).2)
  | [], log, log', _, hv => by
    simp only [createAppendFutures, ← hv]
  | b :: bs, log, log', hs, hv => by
    -- the first futures agree, and so do the logs the rest are made from
    have hfirst : log'.createAppendFuture blockNum b =
        ({ log' with futureVersion := (log.createAppendFuture blockNum b).1.futureVersion },
          (log.createAppendFuture blockNum b).2) := by
      simp only [createAppendFuture, hs, hv]
    have ih := createAppendFutures_of_eq bs (log.createAppendFuture blockNum b).1
      (log'.createAppendFuture blockNum b).1 (by rw [hfirst]; exact hs) (by rw [hfirst])
    simp only [createAppendFutures]
    rw [ih, hfirst]

/-- A future created right before its append. -/
def createAndAppendFuture (log : BlockLog B) (b : B) : Option (BlockLog B) :=
  (log.createAppendFuture blockNum b).1.appendFuture blockNum (log.createAppendFuture blockNum b).2

/-- **Creating all futures first.** The futures of `log_irreversible`, all created before the
first append, write what creating each future right before its append writes. -/
theorem logIrreversible_eq_foldlM (log : BlockLog B) (bs : List B) :
    log.logIrreversible blockNum bs = bs.foldlM (createAndAppendFuture blockNum) log := by
  induction bs generalizing log with
  | nil => rfl
  | cons b bs ih =>
    rw [List.foldlM_cons]
    simp only [← ih]
    simp only [logIrreversible, createAppendFutures, appendFutures, List.foldlM_cons]
    -- the later futures are made from the log after the future of `b`
    rw [createAppendFutures_of_eq blockNum bs (log.createAppendFuture blockNum b).1
      (log.createAppendFuture blockNum b).1 rfl rfl, appendFuture, writeBlock_withFutureVersion]
    unfold createAndAppendFuture appendFuture
    cases hw : ((log.createAppendFuture blockNum b).1.writeBlock blockNum
        (log.createAppendFuture blockNum b).2.1 (log.createAppendFuture blockNum b).2.2) with
    | none => rfl
    | some log' =>
      -- the append of `b` keeps the stride and `future_version` the later futures are made from
      have hs := writeBlock_stride blockNum hw
      have hv : log'.futureVersion = (log.createAppendFuture blockNum b).1.futureVersion := by
        obtain ⟨-, -, rfl⟩ := writeBlock_eq_some blockNum hw
        split <;> rfl
      simp only [Option.map_some, Option.bind_eq_bind, Option.bind_some]
      rw [createAppendFutures_of_eq blockNum bs _ log' hs hv]

/-! ### The two appends -/

/-- A future append in lockstep with a synchronous append, from logs that differ at most in
`future_version`. -/
theorem createAndAppendFuture_eq {s t : BlockLog B} {b : B} (hagree : s.FormatsAgree)
    (hst : { s with futureVersion := t.futureVersion } = t)
    (hformat : (blockNum b).toNat % s.stride = 0 →
      entryFormat s.file.preamble.version = .prunedBlock) :
    s.createAndAppendFuture blockNum b = (s.append blockNum b).map (fun log =>
        { log with futureVersion := (s.createAppendFuture blockNum b).1.futureVersion }) ∧
    t.append blockNum b =
      (s.append blockNum b).map (fun log => { log with futureVersion := t.futureVersion }) := by
  have hpos := s.stride_pos
  -- the future's buffer is the one the synchronous append makes
  have hbuffer : (s.createAppendFuture blockNum b).2.2 =
      createBlockBuffer b s.file.preamble.version := by
    simp only [createBlockBuffer, createAppendFuture, BlockBuffer.mk.injEq, and_true]
    split
    · rename_i hmul
      rw [entryFormat_maxSupportedVersion, hformat (hmul.resolve_left (by omega))]
    · exact hagree
  constructor
  · unfold createAndAppendFuture appendFuture
    rw [hbuffer]
    exact writeBlock_withFutureVersion blockNum s _ b _
  · rw [← hst, append, append, writeBlock_withFutureVersion]

/-- The future appends and the synchronous ones, from logs in lockstep. -/
theorem foldlM_createAndAppendFuture_contents :
    ∀ (bs : List B) (s t : BlockLog B), s.FormatsAgree →
      { s with futureVersion := t.futureVersion } = t →
      (entryFormat s.file.preamble.version = .prunedBlock ∨
        ∀ b ∈ bs, (blockNum b).toNat % s.stride ≠ 0) →
      (bs.foldlM (createAndAppendFuture blockNum) s).map contents =
        (t.appendAll blockNum bs).map contents
  | [], s, t, _, hst, _ => by
    rw [← hst]
    rfl
  | b :: bs, s, t, hagree, hst, hformat => by
    have hpos := s.stride_pos
    have hmul : (blockNum b).toNat % s.stride = 0 →
        entryFormat s.file.preamble.version = .prunedBlock := fun hmul =>
      hformat.resolve_right fun hnone => hnone b List.mem_cons_self hmul
    obtain ⟨hfuture, hsync⟩ := createAndAppendFuture_eq blockNum hagree hst hmul
    rw [appendAll, List.foldlM_cons, List.foldlM_cons, hfuture, hsync]
    cases hw : s.append blockNum b with
    | none => rfl
    | some r =>
      have hs := writeBlock_stride blockNum hw
      have hv := writeBlock_version blockNum hw
      simp only [Option.map_some, Option.bind_eq_bind, Option.bind_some]
      -- the logs after `b` are again in lockstep
      refine foldlM_createAndAppendFuture_contents bs _ _ ?_ rfl ?_
      · show entryFormat (s.createAppendFuture blockNum b).1.futureVersion =
          entryFormat r.file.preamble.version
        rw [hv]
        simp only [createAppendFuture]
        by_cases hm : (blockNum b).toNat % s.stride = 0
        · rw [if_pos (Or.inr hm), if_pos hm]
        · rw [if_neg (by omega), if_neg hm]
          exact hagree
      · show entryFormat r.file.preamble.version = .prunedBlock ∨
          ∀ b ∈ bs, (blockNum b).toNat % r.stride ≠ 0
        rw [hv, hs]
        by_cases hm : (blockNum b).toNat % s.stride = 0
        · rw [if_pos hm]
          exact Or.inl rfl
        · rw [if_neg hm]
          exact hformat.imp_right fun hnone b' hb' => hnone b' (List.mem_cons_of_mem _ hb')

/-- **The future appends write what the synchronous ones write**, from a log whose
`future_version` encodes as its file (as after opening a file or `reset`), as long as the file
already has the latest encoding or no block of the branch has a number that is a multiple of the
stride. -/
theorem logIrreversible_contents (log : BlockLog B) (bs : List B) (hagree : log.FormatsAgree)
    (hformat : entryFormat log.file.preamble.version = .prunedBlock ∨
      ∀ b ∈ bs, (blockNum b).toNat % log.stride ≠ 0) :
    (log.logIrreversible blockNum bs).map contents = (log.appendAll blockNum bs).map contents := by
  rw [logIrreversible_eq_foldlM]
  exact foldlM_createAndAppendFuture_contents blockNum bs log log hagree rfl hformat

/-- A `blocks.log` of version 4 holding block `1`, under a stride of `2`. -/
def prunedLog : BlockLog UInt32 :=
  ofFile 2 (by decide) [] ⟨⟨4, 1⟩, [⟨.prunedBlock, 1⟩]⟩

theorem logIrreversible_contents_pruned :
    prunedLog.FormatsAgree ∧
    (entryFormat prunedLog.file.preamble.version = .prunedBlock ∨
      ∀ b ∈ [2, 3], (id b : UInt32).toNat % prunedLog.stride ≠ 0) ∧
    (prunedLog.logIrreversible id [2, 3]).map contents =
      (prunedLog.appendAll id [2, 3]).map contents :=
  ⟨rfl, Or.inl rfl, logIrreversible_contents id prunedLog [2, 3] rfl (Or.inl rfl)⟩

/-! ### A file of an older version -/

/-- A `blocks.log` of version 3 holding block `1`, under a stride of `2`. -/
def legacyLog : BlockLog UInt32 :=
  ofFile 2 (by decide) [] ⟨⟨3, 1⟩, [⟨.signedBlockV0, 1⟩]⟩

/-- Appending blocks `2` and `3`: both appends split after block `2`, but the future path has
written block `2` in the pruned encoding into the file of version 3, from which
`read_block_by_num` cannot read it, while the synchronous path has written it in the
`signed_block_v0` encoding. -/
theorem logIrreversible_legacy_divergence :
    (legacyLog.logIrreversible id [2, 3]).map contents =
      some (⟨⟨4, 3⟩, [⟨.prunedBlock, 3⟩]⟩,
        [⟨2, ⟨⟨3, 1⟩, [⟨.signedBlockV0, 1⟩, ⟨.prunedBlock, 2⟩]⟩⟩], some 3) ∧
    (legacyLog.appendAll id [2, 3]).map contents =
      some (⟨⟨4, 3⟩, [⟨.prunedBlock, 3⟩]⟩,
        [⟨2, ⟨⟨3, 1⟩, [⟨.signedBlockV0, 1⟩, ⟨.signedBlockV0, 2⟩]⟩⟩], some 3) ∧
    (legacyLog.logIrreversible id [2, 3]).bind (fun log => log.readBlockByNum id 2) = none ∧
    (legacyLog.appendAll id [2, 3]).bind (fun log => log.readBlockByNum id 2) = some 2 := by
  refine ⟨by decide, by decide, by decide, by decide⟩

end BlockLog

end Eosio.Chain
