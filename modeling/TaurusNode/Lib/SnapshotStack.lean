import Mathlib

/-!
# Snapshot stacks

What an undo stack is for: a current state, and for each revision that can still be undone the
state saved when its `push` created it, with its revision, the top one first. `squash` merges the
top revision into the one below it, which keeps the older saved state; `undo` goes back to the
saved state of the top revision, and to the revision below it; `commit` forgets the revisions up
to the one it is given.

`Consecutive` says that the saved revisions are the current revision and those below it, one
each; every operation keeps it, and under it `commit` keeps a prefix of the stack
(`commit_saved`).
-/

/-- A state with the states saved for its revisions, the top one first. -/
structure SnapshotStack (σ : Type*) where
  current : σ
  revision : ℤ
  saved : List (σ × ℤ)

namespace SnapshotStack

variable {σ : Type*} (a : SnapshotStack σ)

/-- Save the current state for a new revision. -/
def push : SnapshotStack σ :=
  ⟨a.current, a.revision + 1, (a.current, a.revision + 1) :: a.saved⟩

/-- Change the current state. -/
def modify (f : σ → σ) : SnapshotStack σ :=
  { a with current := f a.current }

/-- Merge the top revision into the one below: the older saved state stays. -/
def squash : SnapshotStack σ :=
  match a.saved with
  | [] => a
  | _ :: rest => ⟨a.current, a.revision - 1, rest⟩

/-- Go back to the saved state of the top revision, and to the revision below it. -/
def undo : Option (SnapshotStack σ) :=
  match a.saved with
  | [] => none
  | (s, r) :: rest => some ⟨s, r - 1, rest⟩

/-- Forget the revisions up to `revision`. -/
def commit (revision : ℤ) : SnapshotStack σ :=
  { a with saved := a.saved.filter fun e => min revision a.revision < e.2 }

@[simp] theorem push_current : a.push.current = a.current := rfl
@[simp] theorem push_revision : a.push.revision = a.revision + 1 := rfl
@[simp] theorem push_saved : a.push.saved = (a.current, a.revision + 1) :: a.saved := rfl
@[simp] theorem modify_current (f : σ → σ) : (a.modify f).current = f a.current := rfl
@[simp] theorem modify_revision (f : σ → σ) : (a.modify f).revision = a.revision := rfl
@[simp] theorem modify_saved (f : σ → σ) : (a.modify f).saved = a.saved := rfl
@[simp] theorem commit_current (revision : ℤ) : (a.commit revision).current = a.current := rfl
@[simp] theorem commit_revision (revision : ℤ) : (a.commit revision).revision = a.revision := rfl

/-- The saved revisions are the current one and those below it, one each. -/
def Consecutive : Prop :=
  ∀ i (h : i < a.saved.length), (a.saved[i]).2 = a.revision - i

variable {a}

theorem Consecutive.push (h : a.Consecutive) : a.push.Consecutive := by
  intro i hi
  cases i with
  | zero => simp [SnapshotStack.push]
  | succ i =>
    simp only [SnapshotStack.push, List.getElem_cons_succ]
    rw [h i (by simpa [SnapshotStack.push] using hi)]
    push_cast
    ring

theorem Consecutive.modify (h : a.Consecutive) (f : σ → σ) : (a.modify f).Consecutive := h

theorem Consecutive.squash (h : a.Consecutive) : a.squash.Consecutive := by
  unfold SnapshotStack.squash
  split
  · exact h
  · rename_i e rest heq
    intro i hi
    have hi' : i + 1 < a.saved.length := by rw [heq]; simpa using hi
    have := h (i + 1) hi'
    simp only [heq, List.getElem_cons_succ] at this
    simp only
    rw [this]
    push_cast
    ring

theorem Consecutive.undo (h : a.Consecutive) {a' : SnapshotStack σ} (hu : a.undo = some a') :
    a'.Consecutive := by
  unfold SnapshotStack.undo at hu
  split at hu
  · cases hu
  · rename_i s r rest heq
    obtain rfl := Option.some.inj hu
    have htop : r = a.revision := by simpa [heq] using h 0 (by simp [heq])
    intro i hi
    have hi' : i + 1 < a.saved.length := by rw [heq]; simpa using hi
    have := h (i + 1) hi'
    simp only [heq, List.getElem_cons_succ] at this
    simp only
    rw [this, htop]
    push_cast
    ring

/-- Under `Consecutive`, the revisions after `revision` are a prefix of the stack. -/
theorem Consecutive.filter_saved (h : a.Consecutive) (revision : ℤ) :
    a.saved.filter (fun e => revision < e.2) = a.saved.take (a.revision - revision).toNat := by
  have key : ∀ (l : List (σ × ℤ)) (top : ℤ), (∀ i (hi : i < l.length), (l[i]).2 = top - i) →
      l.filter (fun e => revision < e.2) = l.take (top - revision).toNat := by
    intro l
    induction l with
    | nil => simp
    | cons e l ih =>
      intro top hl
      have he : e.2 = top := by
        have h0 := hl 0 (by simp)
        rwa [List.getElem_cons_zero, Nat.cast_zero, sub_zero] at h0
      have hrest : ∀ i (hi : i < l.length), (l[i]).2 = (top - 1) - i := by
        intro i hi
        have := hl (i + 1) (by simpa using hi)
        simp only [List.getElem_cons_succ] at this
        rw [this]
        push_cast
        ring
      by_cases hlt : revision < top
      · have htake : (top - revision).toNat = (top - 1 - revision).toNat + 1 := by omega
        rw [List.filter_cons_of_pos (by simpa [he] using hlt), htake, List.take_succ_cons,
          ih (top - 1) hrest]
      · -- every saved revision is at most `top`, so nothing is kept
        have htake : (top - revision).toNat = 0 := by omega
        rw [htake, List.take_zero, List.filter_eq_nil_iff]
        intro x hx
        obtain ⟨i, hi, rfl⟩ := List.getElem_of_mem hx
        cases i with
        | zero => simp [he]; omega
        | succ i =>
          have := hrest i (by simpa using hi)
          simp only [List.getElem_cons_succ, this, decide_eq_true_eq]
          omega
  exact key a.saved a.revision h

theorem Consecutive.commit (h : a.Consecutive) (revision : ℤ) : (a.commit revision).Consecutive := by
  intro i hi
  simp only [SnapshotStack.commit] at hi ⊢
  simp only [h.filter_saved, List.getElem_take] at hi ⊢
  exact h i (by simp at hi; omega)

end SnapshotStack
