import Mathlib
import TaurusNode.ChainKv.UndoStack
import TaurusNode.Lib.UndoLog

/-!
# What a write session writes

A `write_session` reads each key from the database at most once and keeps the value it read
(`orig_value`) beside the value the operations left (`current_value`). `write_changes` then puts
the current values of the changed keys into the database, and, when there is a revision to undo
to, packs the undo records `(key, orig_value, current_value)` into new segments.

The meaning of a session is `applyOps`: each operation sets or erases its key. The invariant
`WriteSession.Reflects values current ws` says that the cache of `ws`, read over the database
values `values`, holds `current`. Every operation keeps it (`Reflects.set`, `Reflects.erase`),
so a session that ran `ops` holds `applyOps values ops` (`reflects_run`). From it, the undo
records of the session are what an undo log needs (`Reflects.changes_nodup`,
`Reflects.changes_oldValue`), and writing their new values gives the meaning of the session
(`Reflects.assign_changes`).

On the side of the undo stack, `write_changes` only appends segments, numbered on from
`next_undo_segment` and counted for the top revision, and the records in them, in order, are the
session's (`writeChanges_appends`); with no revision it writes no segment
(`writeChanges_of_undoStack_nil`).

## Main results

* `reflects_run` — a session holds the meaning of its operations.
* `Reflects.assign_changes` — `write_changes` writes that meaning (`writeChanges_values`).
* `writeChanges_appends` — the new segments carry the session's undo records.
-/

namespace B1.ChainKv

open UndoLog

/-! ### The meaning of a session -/

namespace SessionOp

/-- The key an operation writes. -/
def key : SessionOp → Bytes
  | .set k _ => k
  | .erase k => k

/-- The value an operation leaves at its key. -/
def value : SessionOp → Option Bytes
  | .set _ v => some v
  | .erase _ => none

/-- The values after the operation. -/
def applyTo (values : Bytes → Option Bytes) (op : SessionOp) : Bytes → Option Bytes :=
  Function.update values op.key op.value

end SessionOp

/-- The values after the operations in order. -/
def applyOps (values : Bytes → Option Bytes) (ops : List SessionOp) : Bytes → Option Bytes :=
  ops.foldl SessionOp.applyTo values

/-- A session's meaning is an undo log's batch of writes. -/
theorem applyOps_eq_assign (values : Bytes → Option Bytes) (ops : List SessionOp) :
    applyOps values ops = assign values (ops.map fun op => (op.key, op.value)) :=
  foldl_update_eq_assign ops SessionOp.key SessionOp.value

/-! ### The cache invariant -/

namespace WriteSession

variable {values current : Bytes → Option Bytes} {ws : WriteSession}

/-- The session over the database values `values` holds the values `current`: an uncached key
has its database value, a cached key remembers its database value and holds its current one,
and a key outside the change list has not changed. -/
structure Reflects (values current : Bytes → Option Bytes) (ws : WriteSession) : Prop where
  uncached : ∀ k, ws.cache k = none → current k = values k
  origValue : ∀ k cv, ws.cache k = some cv → cv.origValue = values k
  currentValue : ∀ k cv, ws.cache k = some cv → cv.currentValue = current k
  unchanged : ∀ k cv, ws.cache k = some cv → k ∉ ws.changeList → cv.currentValue = cv.origValue
  nodup : ws.changeList.Nodup

theorem reflects_empty : empty.Reflects values values where
  uncached _ _ := rfl
  origValue _ _ h := by cases h
  currentValue _ _ h := by cases h
  unchanged _ _ h := by cases h
  nodup := List.nodup_nil

theorem mem_changed (ws : WriteSession) (k : Bytes) : k ∈ ws.changed k := by
  unfold changed
  split_ifs with hk
  · exact hk
  · exact List.mem_cons_self

theorem mem_changed_of_mem {k k' : Bytes} (hk' : k' ∈ ws.changeList) : k' ∈ ws.changed k := by
  unfold changed
  split_ifs
  · exact hk'
  · exact List.mem_cons_of_mem k hk'

theorem nodup_changed (hnodup : ws.changeList.Nodup) (k : Bytes) : (ws.changed k).Nodup := by
  unfold changed
  split_ifs with hk
  · exact hnodup
  · exact List.nodup_cons.mpr ⟨hk, hnodup⟩

/-- Caching a value for `k` that remembers the database value and, outside the new change list,
has not changed, keeps the invariant with `k` now holding the cached current value. -/
theorem Reflects.update (h : ws.Reflects values current) {k : Bytes} (cv : CachedValue)
    {changeList : List Bytes} (horig : cv.origValue = values k)
    (hunchanged : k ∉ changeList → cv.currentValue = cv.origValue)
    (hsub : ∀ k' ∈ ws.changeList, k' ∈ changeList) (hnodup : changeList.Nodup) :
    Reflects values (Function.update current k cv.currentValue)
      ⟨Function.update ws.cache k (some cv), changeList⟩ where
  uncached k' hk' := by
    have hne : k' ≠ k := by
      rintro rfl
      simp at hk'
    rw [Function.update_of_ne hne]
    exact h.uncached k' (by simpa [Function.update_of_ne hne] using hk')
  origValue k' cv' hk' := by
    by_cases hkk : k' = k
    · subst hkk
      obtain rfl : cv = cv' := by simpa using hk'
      exact horig
    · exact h.origValue k' cv' (by simpa [Function.update_of_ne hkk] using hk')
  currentValue k' cv' hk' := by
    by_cases hkk : k' = k
    · subst hkk
      obtain rfl : cv = cv' := by simpa using hk'
      rw [Function.update_self]
    · rw [Function.update_of_ne hkk]
      exact h.currentValue k' cv' (by simpa [Function.update_of_ne hkk] using hk')
  unchanged k' cv' hk' hnot := by
    by_cases hkk : k' = k
    · subst hkk
      obtain rfl : cv = cv' := by simpa using hk'
      exact hunchanged hnot
    · exact h.unchanged k' cv' (by simpa [Function.update_of_ne hkk] using hk')
        (fun hmem => hnot (hsub k' hmem))
  nodup := hnodup

/-- A session that leaves `ws` as it is already holds the value it would write. -/
theorem Reflects.of_eq (h : ws.Reflects values current) {k : Bytes} {v : Option Bytes}
    (hv : current k = v) : ws.Reflects values (Function.update current k v) := by
  rw [← hv, Function.update_eq_self]
  exact h

/-- A changed key goes to the change list. -/
theorem Reflects.update_changed (h : ws.Reflects values current) {k : Bytes} (cv : CachedValue)
    (horig : cv.origValue = values k) :
    Reflects values (Function.update current k cv.currentValue)
      ⟨Function.update ws.cache k (some cv), ws.changed k⟩ :=
  h.update cv horig (fun hk => absurd (mem_changed ws k) hk) (fun _ => mem_changed_of_mem)
    (nodup_changed h.nodup k)

/-- `set(k, v)` keeps the invariant. -/
theorem Reflects.set (h : ws.Reflects values current) (k v : Bytes) :
    (ws.set values k v).Reflects values (Function.update current k (some v)) := by
  unfold WriteSession.set
  rcases hc : ws.cache k with _ | cv <;> dsimp only
  · -- an uncached key is read from the database first
    rcases hv : values k with _ | origV <;> dsimp only
    · exact h.update_changed ⟨none, some v⟩ hv.symm
    · by_cases hsame : v = origV
      · subst hsame
        rw [if_neg (not_not_intro rfl)]
        exact h.update ⟨some v, some v⟩ hv.symm (fun _ => rfl) (fun _ hk => hk) h.nodup
      · rw [if_pos hsame]
        exact h.update_changed ⟨some origV, some v⟩ hv.symm
  · by_cases hchg : cv.currentValue = none ∨ cv.currentValue ≠ some v
    · rw [if_pos hchg]
      exact h.update_changed { cv with currentValue := some v } (h.origValue k cv hc)
    · -- the key already holds `v`
      rw [if_neg hchg]
      have hsame : cv.currentValue = some v := by
        rw [not_or, not_not] at hchg
        exact hchg.2
      exact h.of_eq (by rw [← h.currentValue k cv hc, hsame])

/-- `erase(k)` keeps the invariant. -/
theorem Reflects.erase (h : ws.Reflects values current) (k : Bytes) :
    (ws.erase values k).Reflects values (Function.update current k none) := by
  unfold WriteSession.erase
  rcases hc : ws.cache k with _ | cv <;> dsimp only
  · rcases hv : values k with _ | origV <;> dsimp only
    · exact h.update ⟨none, none⟩ hv.symm (fun _ => rfl) (fun _ hk => hk) h.nodup
    · exact h.update_changed ⟨some origV, none⟩ hv.symm
  · by_cases hsome : cv.currentValue.isSome
    · rw [if_pos hsome]
      exact h.update_changed { cv with currentValue := none } (h.origValue k cv hc)
    · -- the key is already erased
      rw [if_neg hsome]
      have hnone : cv.currentValue = none := by simpa using hsome
      exact h.of_eq (by rw [← h.currentValue k cv hc, hnone])

theorem Reflects.apply (h : ws.Reflects values current) (op : SessionOp) :
    (ws.apply values op).Reflects values (op.applyTo current) := by
  cases op with
  | set k v => exact h.set k v
  | erase k => exact h.erase k

/-- **A session holds the meaning of its operations.** -/
theorem reflects_run (values : Bytes → Option Bytes) (ops : List SessionOp) :
    (run values ops).Reflects values (applyOps values ops) := by
  unfold run applyOps
  -- the cache invariant carries the fold, one operation at a time
  suffices ∀ (ws : WriteSession) current, ws.Reflects values current →
      (ops.foldl (fun ws op => ws.apply values op) ws).Reflects values
        (ops.foldl SessionOp.applyTo current) from this empty values reflects_empty
  induction ops with
  | nil => exact fun _ _ h => h
  | cons op ops ih => exact fun ws current h => ih _ _ (h.apply op)

/-! ### The undo records -/

theorem mem_changes {r : UndoRecord} :
    r ∈ ws.changes ↔ ∃ cv, r.key ∈ ws.changeList ∧ ws.cache r.key = some cv ∧
      cv.origValue ≠ cv.currentValue ∧ r = ⟨r.key, cv.origValue, cv.currentValue⟩ := by
  unfold changes
  rw [List.mem_filterMap]
  constructor
  · rintro ⟨k, hk, hr⟩
    obtain ⟨cv, hcv, hr⟩ := Option.bind_eq_some_iff.mp hr
    split_ifs at hr with hne
    obtain rfl := Option.some.inj hr
    exact ⟨cv, hk, hcv, hne, rfl⟩
  · rintro ⟨cv, hk, hcv, hne, hr⟩
    exact ⟨r.key, hk, Option.bind_eq_some_iff.mpr ⟨cv, hcv, by rw [if_pos hne, ← hr]⟩⟩

/-- The keys of the undo records, in the order of the change list. -/
theorem changes_keys_sublist (ws : WriteSession) :
    (ws.changes.map UndoRecord.key).Sublist ws.changeList := by
  unfold changes
  induction ws.changeList with
  | nil => exact List.Sublist.slnil
  | cons k l ih =>
    rw [List.filterMap_cons]
    rcases hk : (ws.cache k).bind fun cv =>
        if cv.origValue ≠ cv.currentValue then some (⟨k, cv.origValue, cv.currentValue⟩ : UndoRecord)
        else none with _ | r
    · exact ih.cons k
    · -- a record carries the key it was made for
      obtain ⟨cv, -, hr⟩ := Option.bind_eq_some_iff.mp hk
      split_ifs at hr
      obtain rfl := Option.some.inj hr
      exact ih.cons_cons k

theorem Reflects.changes_nodup (h : ws.Reflects values current) :
    (ws.changes.map UndoRecord.key).Nodup :=
  (changes_keys_sublist ws).nodup h.nodup

/-- Each undo record remembers the database value of its key. -/
theorem Reflects.changes_oldValue (h : ws.Reflects values current) :
    ∀ r ∈ ws.changes, r.oldValue = values r.key := by
  intro r hr
  obtain ⟨cv, -, hcv, -, hr⟩ := mem_changes.mp hr
  rw [hr]
  exact h.origValue r.key cv hcv

/-- **Writing the new values of the undo records gives the meaning of the session.** -/
theorem Reflects.assign_changes (h : ws.Reflects values current) :
    assign values (ws.changes.map fun r => (r.key, r.newValue)) = current := by
  funext k
  have hkeys : (ws.changes.map fun r => (r.key, r.newValue)).map Prod.fst =
      ws.changes.map UndoRecord.key := by
    rw [List.map_map]
    rfl
  by_cases hk : k ∈ ws.changes.map UndoRecord.key
  · obtain ⟨r, hr, rfl⟩ := List.mem_map.mp hk
    have hmem : (r.key, r.newValue) ∈ ws.changes.map fun r => (r.key, r.newValue) :=
      List.mem_map_of_mem hr
    rw [assign_apply_of_mem (hkeys ▸ h.changes_nodup) hmem]
    obtain ⟨cv, -, hcv, -, hr⟩ := mem_changes.mp hr
    rw [hr]
    exact h.currentValue r.key cv hcv
  · -- a key with no record has its database value
    rw [assign_apply_of_not_mem (hkeys ▸ hk)]
    rcases hc : ws.cache k with _ | cv
    · exact (h.uncached k hc).symm
    · rw [← h.origValue k cv hc, ← h.currentValue k cv hc]
      by_contra hne
      by_cases hcl : k ∈ ws.changeList
      · exact hk (List.mem_map.mpr ⟨⟨k, cv.origValue, cv.currentValue⟩,
          mem_changes.mpr ⟨cv, hcl, hc, hne, rfl⟩, rfl⟩)
      · exact hne (h.unchanged k cv hc hcl).symm

end WriteSession

/-! ### The segments of `write_changes` -/

/-- The segments `segments'` and state `state'` are `segments` and `state` with the segments `S`
written after them, numbered from the next segment and counted for the top revision. -/
structure Appends (segments : List (ℕ × List UndoRecord)) (state : UndoState)
    (segments' : List (ℕ × List UndoRecord)) (state' : UndoState) (S : List (ℕ × List UndoRecord)) :
    Prop where
  segments_eq : segments' = segments ++ S
  numbers : S.map Prod.fst = List.range' state.nextUndoSegment S.length
  next : state'.nextUndoSegment = state.nextUndoSegment + S.length
  revision : state'.revision = state.revision
  undoStack : state'.undoStack = state.undoStack.modifyHead (· + S.length)

namespace Appends

variable {segments segments' segments'' : List (ℕ × List UndoRecord)}
  {state state' state'' : UndoState} {S S' : List (ℕ × List UndoRecord)}

theorem nil (hsegments : segments' = segments) (hstate : state' = state) :
    Appends segments state segments' state' [] where
  segments_eq := by rw [hsegments, List.append_nil]
  numbers := rfl
  next := by rw [hstate]; rfl
  revision := by rw [hstate]
  undoStack := by
    rw [hstate]
    cases state.undoStack <;> rfl

theorem trans (h : Appends segments state segments' state' S)
    (h' : Appends segments' state' segments'' state'' S') :
    Appends segments state segments'' state'' (S ++ S') where
  segments_eq := by rw [h'.segments_eq, h.segments_eq, List.append_assoc]
  numbers := by
    rw [List.map_append, h.numbers, h'.numbers, h.next, List.length_append, List.range'_append_1]
  next := by rw [h'.next, h.next, List.length_append, Nat.add_assoc]
  revision := by rw [h'.revision, h.revision]
  undoStack := by
    rw [h'.undoStack, h.undoStack, List.modifyHead_modifyHead, List.length_append]
    congr 1
    funext n
    simp only [Function.comp_apply]
    omega

theorem undoStack_ne_nil (h : Appends segments state segments' state' S)
    (hne : state.undoStack ≠ []) : state'.undoStack ≠ [] := by
  rw [h.undoStack]
  cases hs : state.undoStack with
  | nil => exact absurd hs hne
  | cons n rest => exact List.cons_ne_nil _ _

end Appends

namespace WriteBatch

variable (w : WriteBatch) (targetSegmentSize : ℕ) (r : UndoRecord)

@[simp] theorem writeSegment_values : w.writeSegment.values = w.values := by
  unfold writeSegment
  split_ifs <;> rfl

@[simp] theorem appendSegment_values : (w.appendSegment targetSegmentSize r).values = w.values := by
  unfold appendSegment
  split_ifs <;> simp

theorem writeChange_values :
    (w.writeChange targetSegmentSize r).values = Function.update w.values r.key r.newValue := by
  unfold writeChange
  dsimp only
  split_ifs <;> simp

/-- The values `write_changes` puts into the batch. -/
theorem foldl_writeChange_values (rs : List UndoRecord) :
    (rs.foldl (fun (w : WriteBatch) r => w.writeChange targetSegmentSize r) w).values =
      assign w.values (rs.map fun r => (r.key, r.newValue)) := by
  induction rs generalizing w with
  | nil => rfl
  | cons r rs ih => rw [List.foldl_cons, ih, writeChange_values, List.map_cons, assign_cons]

/-- With no revision to undo to, a changed key writes no undo record. -/
theorem foldl_writeChange_of_undoStack_nil (rs : List UndoRecord) (h : w.state.undoStack = []) :
    let w' := rs.foldl (fun (w : WriteBatch) r => w.writeChange targetSegmentSize r) w
    w'.segments = w.segments ∧ w'.state = w.state ∧ w'.segment = w.segment := by
  induction rs generalizing w with
  | nil => exact ⟨rfl, rfl, rfl⟩
  | cons r rs ih =>
    have hstep : w.writeChange targetSegmentSize r =
        { w with values := Function.update w.values r.key r.newValue } := by
      unfold writeChange
      rw [if_neg (not_not_intro h)]
    simp only [List.foldl_cons, hstep]
    exact ih _ h

/-- `write_segment` writes the packed segment, if any, and empties it. -/
theorem writeSegment_appends :
    ∃ S, Appends w.segments w.state w.writeSegment.segments w.writeSegment.state S ∧
      S.flatMap Prod.snd = w.segment ∧ w.writeSegment.segment = [] := by
  unfold writeSegment
  split_ifs with hempty
  · exact ⟨[], Appends.nil rfl rfl, hempty.symm, hempty⟩
  · refine ⟨[(w.state.nextUndoSegment, w.segment)], ⟨rfl, rfl, rfl, rfl, ?_⟩, by simp, rfl⟩
    cases w.state.undoStack <;> rfl

/-- `append_segment` adds the record to the packed segment, writing it first when full. -/
theorem appendSegment_appends :
    ∃ S, Appends w.segments w.state (w.appendSegment targetSegmentSize r).segments
        (w.appendSegment targetSegmentSize r).state S ∧
      S.flatMap Prod.snd ++ (w.appendSegment targetSegmentSize r).segment = w.segment ++ [r] := by
  unfold appendSegment
  split_ifs
  · obtain ⟨S, happ, hS, hempty⟩ := w.writeSegment_appends
    refine ⟨S, happ, ?_⟩
    simp only [hempty, List.nil_append, hS]
  · exact ⟨[], Appends.nil rfl rfl, rfl⟩

/-- With a revision to undo to, a changed key's undo record goes into the segments. -/
theorem writeChange_appends (hne : w.state.undoStack ≠ []) :
    ∃ S, Appends w.segments w.state (w.writeChange targetSegmentSize r).segments
        (w.writeChange targetSegmentSize r).state S ∧
      S.flatMap Prod.snd ++ (w.writeChange targetSegmentSize r).segment = w.segment ++ [r] := by
  unfold writeChange
  rw [if_pos hne]
  exact appendSegment_appends { w with values := Function.update w.values r.key r.newValue }
    targetSegmentSize r

/-- The loop of `write_changes`: the records, in order, are in the segments it wrote and the
one it is packing. -/
theorem foldl_writeChange_appends (rs : List UndoRecord) (hne : w.state.undoStack ≠ []) :
    let w' := rs.foldl (fun (w : WriteBatch) r => w.writeChange targetSegmentSize r) w
    ∃ S, Appends w.segments w.state w'.segments w'.state S ∧
      S.flatMap Prod.snd ++ w'.segment = w.segment ++ rs := by
  induction rs generalizing w with
  | nil => exact ⟨[], Appends.nil rfl rfl, by simp⟩
  | cons r rs ih =>
    obtain ⟨S, happ, hS⟩ := w.writeChange_appends targetSegmentSize r hne
    obtain ⟨S', happ', hS'⟩ := ih _ (happ.undoStack_ne_nil hne)
    refine ⟨S ++ S', happ.trans happ', ?_⟩
    simp only [List.foldl_cons] at hS' ⊢
    rw [List.flatMap_append, List.append_assoc, hS', ← List.append_assoc, hS, List.append_assoc,
      List.singleton_append]

end WriteBatch

/-! ### `write_changes` -/

namespace UndoStack

variable (u : UndoStack) (ws : WriteSession)

theorem writeChanges_targetSegmentSize :
    (u.writeChanges ws).targetSegmentSize = u.targetSegmentSize := rfl

/-- `write_changes` writes the new values of the undo records. -/
theorem writeChanges_values :
    (u.writeChanges ws).db.values = assign u.db.values (ws.changes.map fun r => (r.key, r.newValue)) := by
  simp only [writeChanges, WriteBatch.writeSegment_values]
  exact WriteBatch.foldl_writeChange_values _ _ _

/-- With no revision to undo to, `write_changes` writes no segment. -/
theorem writeChanges_of_undoStack_nil (h : u.state.undoStack = []) :
    (u.writeChanges ws).db.segments = u.db.segments ∧ (u.writeChanges ws).state = u.state := by
  obtain ⟨hsegments, hstate, hsegment⟩ := WriteBatch.foldl_writeChange_of_undoStack_nil
    ⟨u.db.values, u.db.segments, u.state, []⟩ u.targetSegmentSize ws.changes h
  simp only [writeChanges, WriteBatch.writeSegment, hsegment, if_true]
  exact ⟨hsegments, hstate⟩

/-- **`write_changes` appends the session's undo records** in new segments, numbered from the
next segment and counted for the top revision. -/
theorem writeChanges_appends (h : u.state.undoStack ≠ []) :
    ∃ S, Appends u.db.segments u.state (u.writeChanges ws).db.segments (u.writeChanges ws).state S ∧
      S.flatMap Prod.snd = ws.changes := by
  obtain ⟨S, happ, hS⟩ := WriteBatch.foldl_writeChange_appends
    ⟨u.db.values, u.db.segments, u.state, []⟩ u.targetSegmentSize ws.changes h
  obtain ⟨S', happ', hS', -⟩ := WriteBatch.writeSegment_appends
    (ws.changes.foldl (fun (w : WriteBatch) r => w.writeChange u.targetSegmentSize r)
      ⟨u.db.values, u.db.segments, u.state, []⟩)
  refine ⟨S ++ S', happ.trans happ', ?_⟩
  rw [List.flatMap_append, hS', hS, List.nil_append]

end UndoStack

end B1.ChainKv
