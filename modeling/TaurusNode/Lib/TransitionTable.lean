import Mathlib

/-!
# Transition tables with guards that write

A state machine given as a table of rows, each a source state and an event with a guard, an
action and a target state, the way `boost::sml` and libraries like it give one. On an event the
rows of the current state for that event are tried in the order of the table, and the first
whose guard holds fires: its action runs, the machine enters the target, and the target's entry
action runs. A guard is a function of the machine's data that may also write them; a guard that
fails keeps what it wrote, and a guard made of several with `&&` stops at the first that fails
(`Guard.and`). When no row fires the machine stays where it was, with what the guards wrote.

`fire_cases` says what one event did: either no row fired, and no output was produced, or one row
fired from data on which its guard had just held, and the outputs and the data are its action's.
Every property of a table's outputs is read off its rows through it.
-/

namespace TransitionTable

variable {σ S O : Type*}

/-- A guard: whether it holds, and the data as it leaves them. -/
abbrev Guard (σ : Type*) := σ → Bool × σ

/-- The guard of a row that has none. -/
def Guard.pass : Guard σ := fun s => (true, s)

/-- A guard that reads the data only. -/
def Guard.ofPred (p : σ → Bool) : Guard σ := fun s => (p s, s)

/-- `always(f)`: runs `f`, and holds. -/
def Guard.always (f : σ → σ) : Guard σ := fun s => (true, f s)

/-- `g₁ && g₂`: `g₂` runs only when `g₁` held. -/
def Guard.and (g₁ g₂ : Guard σ) : Guard σ := fun s =>
  match g₁ s with
  | (true, s) => g₂ s
  | (false, s) => (false, s)

/-- `!g`. -/
def Guard.not (g : Guard σ) : Guard σ := fun s =>
  match g s with
  | (b, s) => (!b, s)

/-- The action of a row that has none. -/
def skip : σ → List O × σ := fun s => ([], s)

/-- A row of the table, for one source state and one event. -/
structure Row (σ S O : Type*) where
  guard : Guard σ
  action : σ → List O × σ
  target : S

/-- One event: the rows for it are tried in order from `current`, and the first whose guard holds
fires. The outputs, the state the machine is in, and the data. -/
def fire (entry : S → σ → σ) (current : S) : List (Row σ S O) → σ → List O × S × σ
  | [], s => ([], current, s)
  | r :: rs, s =>
    match r.guard s with
    | (true, s) =>
      match r.action s with
      | (out, s) => (out, r.target, entry r.target s)
    | (false, s) => fire entry current rs s

@[simp] theorem Guard.pass_apply (s : σ) : (Guard.pass : Guard σ) s = (true, s) := rfl

@[simp] theorem Guard.ofPred_apply (p : σ → Bool) (s : σ) : Guard.ofPred p s = (p s, s) := rfl

@[simp] theorem Guard.always_apply (f : σ → σ) (s : σ) : Guard.always f s = (true, f s) := rfl

@[simp] theorem Guard.not_apply (g : Guard σ) (s : σ) : g.not s = (!(g s).1, (g s).2) := rfl

theorem Guard.and_apply (g₁ g₂ : Guard σ) (s : σ) :
    (g₁.and g₂) s = if (g₁ s).1 then g₂ (g₁ s).2 else (false, (g₁ s).2) := by
  unfold Guard.and
  cases g₁ s with
  | mk b s₁ => cases b <;> rfl

/-- A conjunction held when its first guard held and the second then did. -/
theorem Guard.and_eq_true {g₁ g₂ : Guard σ} {s s' : σ} :
    (g₁.and g₂) s = (true, s') ↔ ∃ s₁, g₁ s = (true, s₁) ∧ g₂ s₁ = (true, s') := by
  rw [Guard.and_apply]
  constructor
  · intro h
    cases hg : g₁ s with
    | mk b s₁ =>
      rw [hg] at h
      cases b
      · cases h
      · exact ⟨s₁, rfl, h⟩
  · rintro ⟨s₁, h₁, h₂⟩
    rw [h₁]
    exact h₂

theorem fire_nil (entry : S → σ → σ) (current : S) (s : σ) :
    fire entry current ([] : List (Row σ S O)) s = ([], current, s) := rfl

theorem fire_cons (entry : S → σ → σ) (current : S) (r : Row σ S O) (rs : List (Row σ S O))
    (s : σ) :
    fire entry current (r :: rs) s =
      if (r.guard s).1 then
        ((r.action (r.guard s).2).1, r.target, entry r.target (r.action (r.guard s).2).2)
      else fire entry current rs (r.guard s).2 := by
  show (match r.guard s with
    | (true, s) => match r.action s with | (out, s) => (out, r.target, entry r.target s)
    | (false, s) => fire entry current rs s) = _
  cases r.guard s with
  | mk b s₁ => cases b <;> rfl

/-- **What one event did**: no row fired, and the machine stayed without output, or a row fired
from data on which its guard held, with its action's outputs and data, and entered its target. -/
theorem fire_cases {entry : S → σ → σ} {current : S} {rows : List (Row σ S O)} {s : σ}
    {out : List O} {t : S} {s' : σ} (h : fire entry current rows s = (out, t, s')) :
    (out = [] ∧ t = current) ∨
      ∃ r ∈ rows, ∃ s₁ s₂, r.guard s₁ = (true, s₂) ∧ out = (r.action s₂).1 ∧ t = r.target ∧
        s' = entry r.target (r.action s₂).2 := by
  induction rows generalizing s with
  | nil =>
    cases h
    exact .inl ⟨rfl, rfl⟩
  | cons r rs ih =>
    rw [fire_cons] at h
    cases hg : r.guard s with
    | mk b s₂ =>
      rw [hg] at h
      cases b
      · -- the row's guard failed: the rest of the rows are tried from what it wrote
        rcases ih h with hnone | ⟨r', hr', hfired⟩
        · exact .inl hnone
        · exact .inr ⟨r', List.mem_cons_of_mem r hr', hfired⟩
      · -- the row fires
        simp only [if_true, Prod.mk.injEq] at h
        obtain ⟨rfl, rfl, rfl⟩ := h
        exact .inr ⟨r, List.mem_cons_self, s, s₂, hg, rfl, rfl, rfl⟩

end TransitionTable
