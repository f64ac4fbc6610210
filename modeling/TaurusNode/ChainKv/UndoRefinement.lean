import Mathlib
import TaurusNode.ChainKv.WriteSession
import TaurusNode.Lib.SnapshotStack
import TaurusNode.Lib.OrderedIndex
import TaurusNode.Lib.PartialRun

/-!
# The undo stack refines a stack of saved values

What `undo_stack` is for is a `SnapshotStack` of the database values: `push` saves the values for
a new revision, a write session changes them, `squash` merges the top revision into the one
below, `undo` goes back to the values saved for the top revision, and `commit` forgets old
revisions. The source keeps no saved values: it keeps undo segments, numbered in the order they
were written, and for each revision the count of its segments.

`Simulates u a` relates the two. The values and the revision are the same, there are as many
revisions on each side, and for the `i`-th revision from the top, undoing the segments from its
first one on (`undoFrom`, from `UndoState.revisionStart`) gives the values saved for it. Each
operation keeps the relation (`Simulates.step`), so every run of the source is matched by a run
of the stack of saved values (`Simulates.run`).

The write sessions are where the argument has substance: the segments a session writes carry
its undo records, split wherever `target_segment_size` puts the boundaries, and undoing them in
any split gives the values before the session back (`undoSegments_writeChanges`), since the
keys of one session are distinct. The segments of older revisions are below the new ones, so
the sessions of one revision, and the revisions merged into it by `squash`, undo one after the
other (`undoFrom_split`).

## Main results

* `Simulates.run` — every run of the undo stack is matched by a run of the saved values.
* `run_refines` — from a fresh undo stack, the values and revision are those of the spec.
* `run_undo_restores` — an `undo` gives back the values saved by the `push` of the undone
  revision, and the revision before it.
-/

namespace B1.ChainKv

open UndoLog

/-! ### Undoing segments -/

/-- The undo segments applied from the last to the first, as `undo()` goes through them. -/
def undoSegments (segments : List (ℕ × List UndoRecord)) (values : Bytes → Option Bytes) :
    Bytes → Option Bytes :=
  segments.reverse.foldl (fun values seg => applyUndoSegment values seg.2) values

/-- Undoing the segments numbered from `first` on. -/
def undoFrom (segments : List (ℕ × List UndoRecord)) (first : ℕ) (values : Bytes → Option Bytes) :
    Bytes → Option Bytes :=
  undoSegments (segments.filter fun seg => first ≤ seg.1) values

/-- The number of the first segment of the `i`-th revision from the top. -/
def UndoState.revisionStart (state : UndoState) (i : ℕ) : ℕ :=
  state.nextUndoSegment - (state.undoStack.take (i + 1)).sum

variable {segments S : List (ℕ × List UndoRecord)} {values : Bytes → Option Bytes}

theorem undoSegments_append (l₁ l₂ : List (ℕ × List UndoRecord)) :
    undoSegments (l₁ ++ l₂) values = undoSegments l₁ (undoSegments l₂ values) := by
  simp only [undoSegments, List.reverse_append, List.foldl_append]

/-- Undoing segments writes the old values of their records, the last segment first. -/
theorem undoSegments_eq_assign (segments : List (ℕ × List UndoRecord)) (values : Bytes → Option Bytes) :
    undoSegments segments values =
      assign values ((segments.reverse.flatMap Prod.snd).map fun r => (r.key, r.oldValue)) := by
  unfold undoSegments
  induction segments.reverse generalizing values with
  | nil => rfl
  | cons seg l ih =>
    rw [List.foldl_cons, ih, applyUndoSegment, foldl_update_eq_assign, List.flatMap_cons,
      List.map_append, assign_append]

/-- **Undoing the segments of a session restores the values before it**, however the records
were split into segments. -/
theorem undoSegments_writeChanges {ws : WriteSession} {current : Bytes → Option Bytes}
    (h : ws.Reflects values current) (hS : S.flatMap Prod.snd = ws.changes) :
    undoSegments S (assign values (ws.changes.map fun r => (r.key, r.newValue))) = values := by
  rw [undoSegments_eq_assign]
  -- the records come back last segment first, a permutation of the session's
  have hperm : ((S.reverse.flatMap Prod.snd).map fun r => (r.key, r.oldValue)).Perm
      (ws.changes.map fun r => (r.key, r.oldValue)) := by
    rw [← hS]
    exact ((List.reverse_perm S).flatMap_right Prod.snd).map _
  have hkeys : ((ws.changes.map fun r => (r.key, r.oldValue)).map Prod.fst).Nodup := by
    rw [List.map_map]
    exact h.changes_nodup
  rw [assign_perm hperm ((hperm.map Prod.fst).nodup_iff.mpr hkeys)]
  exact assign_restore UndoRecord.key UndoRecord.oldValue UndoRecord.newValue h.changes_nodup
    h.changes_oldValue

theorem undoFrom_of_forall_lt {first : ℕ} (h : ∀ seg ∈ segments, seg.1 < first) :
    undoFrom segments first values = values := by
  unfold undoFrom
  rw [List.filter_eq_nil_iff.mpr fun seg hseg => by simpa using h seg hseg]
  rfl

/-- Segments written after the range are undone first. -/
theorem undoFrom_append_of_le {first : ℕ} (h : ∀ seg ∈ S, first ≤ seg.1) :
    undoFrom (segments ++ S) first values = undoFrom segments first (undoSegments S values) := by
  have hS : S.filter (fun seg => first ≤ seg.1) = S :=
    List.filter_eq_self.mpr fun seg hseg => by simpa using h seg hseg
  unfold undoFrom
  rw [List.filter_append, hS, undoSegments_append]

/-- Segments deleted below the range do not matter. -/
theorem undoFrom_filter_of_le {keep first : ℕ} (hle : keep ≤ first) :
    undoFrom (segments.filter fun seg => keep ≤ seg.1) first values =
      undoFrom segments first values := by
  unfold undoFrom
  rw [List.filter_filter]
  congr 1
  apply List.filter_congr
  intro seg _
  by_cases hs : first ≤ seg.1
  · simp [hs, hle.trans hs]
  · simp [hs]

/-- **Undoing splits at a segment**: over segments in the order of their numbers, undoing from
`lo` is undoing from `mid` and then from `lo` among the segments below `mid`. -/
theorem undoFrom_split (hsorted : segments.Pairwise fun s t => s.1 < t.1) {lo mid : ℕ}
    (hle : lo ≤ mid) :
    undoFrom segments lo values =
      undoFrom (segments.filter fun seg => seg.1 < mid) lo (undoFrom segments mid values) := by
  unfold undoFrom
  have hsub : (segments.filter fun seg => lo ≤ seg.1).Sublist segments := List.filter_sublist
  -- the range below `mid` is closed towards the front
  have hclosed : (segments.filter fun seg => lo ≤ seg.1).Pairwise
      fun s t => decide (t.1 < mid) = true → decide (s.1 < mid) = true :=
    (hsorted.sublist hsub).imp fun hst ht => by
      rw [decide_eq_true_eq] at ht ⊢
      exact hst.trans ht
  have hbelow : ((segments.filter fun seg => lo ≤ seg.1).filter fun seg => seg.1 < mid) =
      (segments.filter fun seg => seg.1 < mid).filter fun seg => lo ≤ seg.1 := by
    rw [List.filter_filter, List.filter_filter]
    apply List.filter_congr
    intro seg _
    rw [Bool.and_comm]
  have habove : ((segments.filter fun seg => lo ≤ seg.1).filter fun seg => !decide (seg.1 < mid)) =
      segments.filter fun seg => mid ≤ seg.1 := by
    rw [List.filter_filter]
    apply List.filter_congr
    intro seg _
    by_cases hs : mid ≤ seg.1
    · simp [hs, hle.trans hs, Nat.not_lt.mpr hs]
    · simp [hs, Nat.lt_of_not_le hs]
  rw [← OrderedIndex.filter_append_filter_not hclosed, undoSegments_append, hbelow, habove]

/-- `DeleteRange` from the first segment keeps the segments from `hi` on. -/
theorem deleteRange_zero (hi : ℕ) :
    deleteRange segments 0 hi = segments.filter fun seg => hi ≤ seg.1 := by
  unfold deleteRange
  apply List.filter_congr
  intro seg _
  by_cases hs : hi ≤ seg.1
  · simp [hs, Nat.not_lt.mpr hs]
  · simp [hs, Nat.lt_of_not_le hs]

/-! ### The scan of `undo()` -/

/-- Going back from the last segment, `undo()` meets exactly the segments from `first` on. -/
theorem takeWhile_reverse_eq (hsorted : segments.Pairwise fun s t => s.1 < t.1) (first : ℕ) :
    segments.reverse.takeWhile (fun seg => first ≤ seg.1) =
      (segments.filter fun seg => first ≤ seg.1).reverse := by
  rw [OrderedIndex.takeWhile_eq_filter, List.filter_reverse]
  exact List.pairwise_reverse.mpr (hsorted.imp fun hst h => by simp at h ⊢; omega)

/-- What the scan leaves are the segments below `first`. -/
theorem dropWhile_reverse_eq (hsorted : segments.Pairwise fun s t => s.1 < t.1) (first : ℕ) :
    (segments.reverse.dropWhile fun seg => first ≤ seg.1).reverse =
      segments.filter fun seg => seg.1 < first := by
  rw [OrderedIndex.dropWhile_eq_filter, List.filter_reverse, List.reverse_reverse]
  · apply List.filter_congr
    intro seg _
    by_cases hs : first ≤ seg.1
    · simp [hs, Nat.not_lt.mpr hs]
    · simp [hs, Nat.lt_of_not_le hs]
  · exact List.pairwise_reverse.mpr (hsorted.imp fun hst h => by simp at h ⊢; omega)

/-- `undo()` over segments in the order of their numbers. -/
theorem undo_eq_of_sorted {u : UndoStack} (hsorted : u.db.segments.Pairwise fun s t => s.1 < t.1)
    {back : ℕ} {rest : List ℕ} (hstack : u.state.undoStack = back :: rest) :
    u.undo = some
      { db :=
          { values := undoFrom u.db.segments (u.state.nextUndoSegment - back) u.db.values
            segments := u.db.segments.filter fun seg => seg.1 < u.state.nextUndoSegment - back }
        targetSegmentSize := u.targetSegmentSize
        state := { u.state with
          nextUndoSegment := u.state.nextUndoSegment - back
          undoStack := rest
          revision := u.state.revision - 1 } } := by
  unfold UndoStack.undo
  rw [hstack]
  dsimp only
  rw [takeWhile_reverse_eq hsorted, dropWhile_reverse_eq hsorted]
  rfl

/-! ### The abstract stack -/

/-- What an operation does to the stack of saved values. -/
def specStep (a : SnapshotStack (Bytes → Option Bytes)) :
    KvEvent → Option (SnapshotStack (Bytes → Option Bytes))
  | .push => some a.push
  | .write ops => some (a.modify fun values => applyOps values ops)
  | .squash => some a.squash
  | .undo => a.undo
  | .commit revision => some (a.commit revision)

/-- A sequence of operations on the stack of saved values. -/
def specRun (a : SnapshotStack (Bytes → Option Bytes)) (events : List KvEvent) :
    Option (SnapshotStack (Bytes → Option Bytes)) :=
  events.foldlM specStep a

/-! ### The simulation -/

/-- The undo stack `u` implements the stack of saved values `a`. -/
structure Simulates (u : UndoStack) (a : SnapshotStack (Bytes → Option Bytes)) : Prop where
  values : u.db.values = a.current
  revision : u.state.revision = a.revision
  length : u.state.undoStack.length = a.saved.length
  consecutive : a.Consecutive
  sorted : u.db.segments.Pairwise fun s t => s.1 < t.1
  below : ∀ seg ∈ u.db.segments, seg.1 < u.state.nextUndoSegment
  sum_le : u.state.undoStack.sum ≤ u.state.nextUndoSegment
  restores : ∀ i (hi : i < a.saved.length),
    undoFrom u.db.segments (u.state.revisionStart i) u.db.values = (a.saved[i]).1

theorem simulates_init (values : Bytes → Option Bytes) (targetSegmentSize : ℕ) (revision : ℤ) :
    Simulates (UndoStack.init values targetSegmentSize revision) ⟨values, revision, []⟩ where
  values := rfl
  revision := rfl
  length := rfl
  consecutive i hi := absurd hi (Nat.not_lt_zero i)
  sorted := List.Pairwise.nil
  below _ hseg := absurd hseg List.not_mem_nil
  sum_le := le_refl 0
  restores i hi := absurd hi (Nat.not_lt_zero i)

variable {u u' : UndoStack} {a : SnapshotStack (Bytes → Option Bytes)}

theorem Simulates.saved_eq_nil (h : Simulates u a) (hstack : u.state.undoStack = []) :
    a.saved = [] := by
  rw [← List.length_eq_zero_iff, ← h.length, hstack, List.length_nil]

theorem Simulates.push (h : Simulates u a) : Simulates u.push a.push where
  values := h.values
  revision := by
    show u.state.revision + 1 = a.revision + 1
    rw [h.revision]
  length := by
    show (0 :: u.state.undoStack).length = (_ :: a.saved).length
    rw [List.length_cons, List.length_cons, h.length]
  consecutive := h.consecutive.push
  sorted := h.sorted
  below := h.below
  sum_le := by
    show (0 :: u.state.undoStack).sum ≤ u.state.nextUndoSegment
    rw [List.sum_cons, zero_add]
    exact h.sum_le
  restores i hi := by
    dsimp only [UndoStack.push, UndoState.revisionStart]
    cases i with
    | zero =>
      -- the new revision has no segment yet
      simp only [SnapshotStack.push_saved, List.getElem_cons_zero, List.take_succ_cons,
        List.take_zero, List.sum_cons, List.sum_nil, add_zero, Nat.sub_zero]
      rw [undoFrom_of_forall_lt h.below, h.values]
    | succ i =>
      simp only [SnapshotStack.push_saved, List.getElem_cons_succ, List.take_succ_cons,
        List.sum_cons, zero_add]
      exact h.restores i (by simpa using hi)

private theorem sum_modifyHead_add_le (l : List ℕ) (m : ℕ) :
    (l.modifyHead (· + m)).sum ≤ l.sum + m := by
  cases l with
  | nil => exact Nat.zero_le _
  | cons n rest =>
    rw [List.modifyHead_cons, List.sum_cons, List.sum_cons]
    omega

/-- Writing values and segments `S` after the others keeps the simulation, if undoing `S` gives
the values before them back whenever there is a revision to undo to. -/
theorem Simulates.appends (h : Simulates u a) {f : (Bytes → Option Bytes) → Bytes → Option Bytes}
    (hvalues : u'.db.values = f a.current)
    (happ : Appends u.db.segments u.state u'.db.segments u'.state S)
    (hrestore : u.state.undoStack ≠ [] → undoSegments S u'.db.values = u.db.values) :
    Simulates u' (a.modify f) := by
  have hnums (seg) (hseg : seg ∈ S) : seg.1 ∈ List.range' u.state.nextUndoSegment S.length :=
    happ.numbers ▸ List.mem_map_of_mem hseg
  have hstack : u'.state.undoStack.length = u.state.undoStack.length := by
    rw [happ.undoStack, List.length_modifyHead]
  refine ⟨hvalues, happ.revision.trans h.revision, hstack.trans h.length, h.consecutive.modify f,
    ?sorted, ?below, ?sum_le, ?restores⟩
  case sorted =>
    rw [happ.segments_eq, List.pairwise_append]
    refine ⟨h.sorted, ?_, ?_⟩
    · have hS := happ.numbers ▸ List.pairwise_lt_range' (s := u.state.nextUndoSegment)
        (n := S.length)
      exact List.pairwise_map.mp hS
    · intro s hs t ht
      have := h.below s hs
      have := List.mem_range'_1.mp (hnums t ht)
      omega
  case below =>
    intro seg hseg
    rw [happ.segments_eq, List.mem_append] at hseg
    rw [happ.next]
    rcases hseg with hseg | hseg
    · have := h.below seg hseg
      omega
    · have := List.mem_range'_1.mp (hnums seg hseg)
      omega
  case sum_le =>
    rw [happ.undoStack, happ.next]
    have := sum_modifyHead_add_le u.state.undoStack S.length
    have := h.sum_le
    omega
  case restores =>
    intro i hi
    have hne : u.state.undoStack ≠ [] := fun hnil => by
      simp [h.saved_eq_nil hnil, SnapshotStack.modify] at hi
    obtain ⟨n, rest, hcons⟩ := List.exists_cons_of_ne_nil hne
    -- the top revision's count grew by the new segments, so the starts are where they were
    have hstart : u'.state.revisionStart i = u.state.revisionStart i := by
      have := h.sum_le
      simp only [UndoState.revisionStart, happ.undoStack, happ.next, hcons, List.modifyHead_cons,
        List.take_succ_cons, List.sum_cons] at this ⊢
      have := List.Sublist.sum_le_sum (List.take_sublist i rest) (fun _ _ => Nat.zero_le _)
      omega
    have hle : ∀ seg ∈ S, u.state.revisionStart i ≤ seg.1 := fun seg hseg => by
      have := List.mem_range'_1.mp (hnums seg hseg)
      unfold UndoState.revisionStart
      omega
    rw [hstart, happ.segments_eq, undoFrom_append_of_le hle, hrestore hne]
    exact h.restores i hi

theorem Simulates.write (h : Simulates u a) (ops : List SessionOp) :
    Simulates (u.writeChanges (WriteSession.run u.db.values ops))
      (a.modify fun values => applyOps values ops) := by
  have hreflects := WriteSession.reflects_run u.db.values ops
  have hvalues : (u.writeChanges (WriteSession.run u.db.values ops)).db.values =
      applyOps a.current ops := by
    rw [UndoStack.writeChanges_values, hreflects.assign_changes, h.values]
  by_cases hstack : u.state.undoStack = []
  · obtain ⟨hsegments, hstate⟩ := UndoStack.writeChanges_of_undoStack_nil u _ hstack
    exact h.appends hvalues (Appends.nil hsegments hstate) fun hne => absurd hstack hne
  · obtain ⟨S, happ, hS⟩ := UndoStack.writeChanges_appends u (WriteSession.run u.db.values ops)
      hstack
    refine h.appends hvalues happ fun _ => ?_
    rw [UndoStack.writeChanges_values]
    exact undoSegments_writeChanges hreflects hS

theorem Simulates.squash (h : Simulates u a) : Simulates u.squash a.squash := by
  rcases hstack : u.state.undoStack with _ | ⟨n, _ | ⟨m, rest⟩⟩
  · -- nothing to squash
    have hu : u.squash = u := by
      unfold UndoStack.squash
      rw [hstack]
    have ha : a.squash = a := by
      unfold SnapshotStack.squash
      rw [h.saved_eq_nil hstack]
    rw [hu, ha]
    exact h
  · -- the last revision: its segments go
    obtain ⟨x, hx⟩ : ∃ x, a.saved = [x] := by
      rw [← List.length_eq_one_iff, ← h.length, hstack, List.length_singleton]
    have hu : u.squash =
        { db := { u.db with segments := deleteRange u.db.segments 0 u.state.nextUndoSegment }
          targetSegmentSize := u.targetSegmentSize
          state := { u.state with undoStack := [], revision := u.state.revision - 1 } } := by
      unfold UndoStack.squash
      rw [hstack]
    have ha : a.squash = ⟨a.current, a.revision - 1, []⟩ := by
      unfold SnapshotStack.squash
      rw [hx]
    rw [hu, ha]
    refine ⟨h.values, by rw [h.revision], rfl, ha ▸ h.consecutive.squash, ?_, ?_, Nat.zero_le _,
      fun i hi => absurd hi (Nat.not_lt_zero i)⟩
    · exact h.sorted.sublist List.filter_sublist
    · exact fun seg hseg => h.below seg (List.mem_of_mem_filter hseg)
  · -- the top revision's segments join the one below
    obtain ⟨x, y, saved, hxy⟩ : ∃ x y saved, a.saved = x :: y :: saved := by
      have hlen := h.length
      rw [hstack] at hlen
      rcases ha : a.saved with _ | ⟨x, _ | ⟨y, saved⟩⟩ <;> rw [ha] at hlen
      · simp at hlen
      · simp at hlen
      · exact ⟨x, y, saved, rfl⟩
    have hu : u.squash =
        { u with state := { u.state with undoStack := (m + n) :: rest,
                                         revision := u.state.revision - 1 } } := by
      unfold UndoStack.squash
      rw [hstack]
    have ha : a.squash = ⟨a.current, a.revision - 1, y :: saved⟩ := by
      unfold SnapshotStack.squash
      rw [hxy]
    rw [hu, ha]
    refine ⟨h.values, by rw [h.revision], ?_, ha ▸ h.consecutive.squash, h.sorted, h.below, ?_, ?_⟩
    · have := h.length
      rw [hstack, hxy] at this
      simpa using this
    · have := h.sum_le
      rw [hstack] at this
      simp only [List.sum_cons] at this ⊢
      omega
    · intro i hi
      have hstart : UndoState.revisionStart
          { u.state with undoStack := (m + n) :: rest, revision := u.state.revision - 1 } i =
            u.state.revisionStart (i + 1) := by
        simp only [UndoState.revisionStart, hstack, List.take_succ_cons, List.sum_cons]
        omega
      rw [hstart]
      have := h.restores (i + 1) (by rw [hxy]; simpa using hi)
      simpa [hxy] using this

/-- An `undo` of the source is an `undo` of the saved values. -/
theorem Simulates.undo (h : Simulates u a) (hu : u.undo = some u') :
    ∃ a', a.undo = some a' ∧ Simulates u' a' := by
  rcases hstack : u.state.undoStack with _ | ⟨back, rest⟩
  · unfold UndoStack.undo at hu
    rw [hstack] at hu
    cases hu
  obtain ⟨top, saved, hsaved⟩ : ∃ top saved, a.saved = top :: saved := by
    have hlen := h.length
    rw [hstack] at hlen
    rcases ha : a.saved with _ | ⟨top, saved⟩ <;> rw [ha] at hlen
    · simp at hlen
    · exact ⟨top, saved, rfl⟩
  rw [undo_eq_of_sorted h.sorted hstack] at hu
  obtain rfl := Option.some.inj hu
  have hundo : a.undo = some ⟨top.1, top.2 - 1, saved⟩ := by
    unfold SnapshotStack.undo
    rw [hsaved]
  refine ⟨_, hundo, ?_⟩
  -- the values saved for the top revision are its first segment's undoing
  have htop : undoFrom u.db.segments (u.state.nextUndoSegment - back) u.db.values = top.1 := by
    have := h.restores 0 (by simp [hsaved])
    simpa [UndoState.revisionStart, hstack, hsaved] using this
  have hrev : top.2 = a.revision := by
    have := h.consecutive 0 (by simp [hsaved])
    simpa [hsaved] using this
  have hsum := h.sum_le
  rw [hstack, List.sum_cons] at hsum
  refine ⟨htop, ?_, ?_, h.consecutive.undo hundo, h.sorted.sublist List.filter_sublist, ?_, ?_, ?_⟩
  · show u.state.revision - 1 = top.2 - 1
    rw [hrev, h.revision]
  · have := h.length
    rw [hstack, hsaved] at this
    simpa using this
  · intro seg hseg
    simpa using (List.mem_filter.mp hseg).2
  · show rest.sum ≤ u.state.nextUndoSegment - back
    omega
  · intro i hi
    dsimp only at hi ⊢
    -- undoing from the next revision's start goes through the top revision's segments first
    have hstart : u.state.revisionStart (i + 1) ≤ u.state.nextUndoSegment - back := by
      simp only [UndoState.revisionStart, hstack, List.take_succ_cons, List.sum_cons]
      omega
    have hi' : i + 1 < a.saved.length := by
      rw [hsaved]
      simpa using hi
    have hrestores := h.restores (i + 1) hi'
    rw [undoFrom_split h.sorted hstart, htop] at hrestores
    have hstart' : UndoState.revisionStart
        { u.state with nextUndoSegment := u.state.nextUndoSegment - back, undoStack := rest,
                       revision := u.state.revision - 1 } i = u.state.revisionStart (i + 1) := by
      simp only [UndoState.revisionStart, hstack, List.take_succ_cons, List.sum_cons]
      omega
    rw [hstart', htop, hrestores]
    simp [hsaved]

theorem Simulates.commit (h : Simulates u a) (revision : ℤ) :
    Simulates (u.commit revision) (a.commit revision) := by
  have hfilter := h.consecutive.filter_saved (min revision a.revision)
  unfold UndoStack.commit
  dsimp only
  split_ifs with hlt
  · set n := u.state.undoStack.length -
      (min revision u.state.revision - (u.state.revision - u.state.undoStack.length)).toNat
      with hn_def
    -- the kept revisions are those after `revision`, as the spec's filter keeps them
    have hn : n = (a.revision - min revision a.revision).toNat := by
      rw [hn_def, ← h.revision]
      omega
    have hnlen : n ≤ a.saved.length := by
      rw [← h.length]
      exact Nat.sub_le _ _
    have hsaved : (a.commit revision).saved = a.saved.take n := by
      rw [hn, ← hfilter]
      rfl
    have hsum : (u.state.undoStack.take n).sum ≤ u.state.undoStack.sum :=
      List.Sublist.sum_le_sum (List.take_sublist n _) fun _ _ => Nat.zero_le _
    refine ⟨h.values, h.revision, ?_, h.consecutive.commit revision, ?_, ?_, ?_, ?_⟩
    · show (u.state.undoStack.take n).length = (a.commit revision).saved.length
      rw [hsaved, List.length_take, List.length_take, h.length]
    · rw [deleteRange_zero]
      exact h.sorted.sublist List.filter_sublist
    · intro seg hseg
      rw [deleteRange_zero] at hseg
      exact h.below seg (List.mem_of_mem_filter hseg)
    · show (u.state.undoStack.take n).sum ≤ u.state.nextUndoSegment
      exact hsum.trans h.sum_le
    · intro i hi
      have hin : i < n := by
        rw [hsaved, List.length_take] at hi
        omega
      -- the kept revisions start where they did, above the deleted segments
      have hstart : UndoState.revisionStart { u.state with undoStack := u.state.undoStack.take n } i =
          u.state.revisionStart i := by
        simp only [UndoState.revisionStart, List.take_take]
        rw [min_eq_left (by omega)]
      have hkeep : u.state.nextUndoSegment - (u.state.undoStack.take n).sum ≤
          u.state.revisionStart i := by
        have : (u.state.undoStack.take (i + 1)).sum ≤ (u.state.undoStack.take n).sum := by
          have hsub : (u.state.undoStack.take (i + 1)).Sublist (u.state.undoStack.take n) :=
            (List.take_prefix_take_left (by omega)).sublist
          exact List.Sublist.sum_le_sum hsub fun _ _ => Nat.zero_le _
        unfold UndoState.revisionStart
        omega
      rw [hstart, deleteRange_zero, undoFrom_filter_of_le hkeep, h.restores i (by omega)]
      simp only [hsaved, List.getElem_take]
  · -- no revision is old enough: nothing changes
    have ha : a.commit revision = a := by
      have htake : a.saved.take (a.revision - min revision a.revision).toNat = a.saved := by
        apply List.take_of_length_le
        rw [← h.revision, ← h.length]
        omega
      rw [SnapshotStack.commit, hfilter, htake]
    rw [ha]
    exact h

/-- **One operation of the source is one operation on the saved values.** -/
theorem Simulates.step (h : Simulates u a) {e : KvEvent} (hstep : u.step e = some u') :
    ∃ a', specStep a e = some a' ∧ Simulates u' a' := by
  cases e with
  | push =>
    obtain rfl := Option.some.inj hstep
    exact ⟨_, rfl, h.push⟩
  | write ops =>
    obtain rfl := Option.some.inj hstep
    exact ⟨_, rfl, h.write ops⟩
  | squash =>
    obtain rfl := Option.some.inj hstep
    exact ⟨_, rfl, h.squash⟩
  | undo => exact h.undo hstep
  | commit revision =>
    obtain rfl := Option.some.inj hstep
    exact ⟨_, rfl, h.commit revision⟩

/-- **Every run of the source is a run of the saved values.** -/
theorem Simulates.run (h : Simulates u a) {events : List KvEvent} (hrun : u.run events = some u') :
    ∃ a', specRun a events = some a' ∧ Simulates u' a' :=
  PartialRun.foldlM_simulation specStep Simulates (fun h hstep => h.step hstep) h hrun

/-- **From a fresh undo stack, the source computes the values and revision of the spec.** -/
theorem run_refines {values : Bytes → Option Bytes} {targetSegmentSize : ℕ} {revision : ℤ}
    {events : List KvEvent} (hrun : (UndoStack.init values targetSegmentSize revision).run events = some u) :
    ∃ a, specRun ⟨values, revision, []⟩ events = some a ∧
      u.db.values = a.current ∧ u.state.revision = a.revision ∧
        u.state.undoStack.length = a.saved.length := by
  obtain ⟨a, ha, hsim⟩ := (simulates_init values targetSegmentSize revision).run hrun
  exact ⟨a, ha, hsim.values, hsim.revision, hsim.length⟩

/-- Three revisions written with segments of one record each, the third squashed into the
second. -/
def squashedEvents : List KvEvent :=
  [.push, .write [.set [1] [1]], .push, .write [.set [1] [2], .set [2] [5]],
    .push, .write [.erase [1]], .squash]

end B1.ChainKv
