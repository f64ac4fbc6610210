import Mathlib

/-!
# Computations that throw

Code that throws is modelled in `Except ε`. A `do` block is a chain of binds, and a fact about
its result is one about each step: these rules split a bind that succeeded, or failed with a
given error, into its first computation and the rest.

Code that updates an object in place and may throw part way through is modelled in
`EStateM ε σ`: a throw returns the state as the writes before it left it. The `run_*` rules
execute such a block one statement at a time, so that its result is a nest of `if`s over the
checks, each ending in the state it returns. `stateOf` is the state a computation leaves, whether
it returns or throws.
-/

namespace Fallible

universe u

variable {ε : Type*} {α β : Type u} {x : Except ε α} {f : α → Except ε β}

theorem bind_eq_ok {b : β} : (x >>= f) = .ok b ↔ ∃ a, x = .ok a ∧ f a = .ok b := by
  cases x with
  | error e =>
    constructor
    · intro h
      cases h
    · rintro ⟨a, h, -⟩
      cases h
  | ok a =>
    constructor
    · intro h
      exact ⟨a, rfl, h⟩
    · rintro ⟨a', h, hf⟩
      cases h
      exact hf

theorem bind_eq_error {e : ε} :
    (x >>= f) = .error e ↔ x = .error e ∨ ∃ a, x = .ok a ∧ f a = .error e := by
  cases x with
  | error e' =>
    -- an error is passed on as it is
    change (Except.error e' : Except ε β) = .error e ↔ _
    constructor
    · intro h
      cases h
      exact .inl rfl
    · rintro (h | ⟨a, h, -⟩)
      · cases h
        rfl
      · cases h
  | ok a =>
    constructor
    · intro h
      exact .inr ⟨a, rfl, h⟩
    · rintro (h | ⟨a', h, hf⟩)
      · cases h
      · cases h
        exact hf

theorem map_eq_ok {g : α → β} {b : β} : (g <$> x) = .ok b ↔ ∃ a, x = .ok a ∧ g a = b := by
  cases x with
  | error e =>
    constructor
    · intro h
      cases h
    · rintro ⟨a, h, -⟩
      cases h
  | ok a =>
    constructor
    · intro h
      cases h
      exact ⟨a, rfl, rfl⟩
    · rintro ⟨a', h, rfl⟩
      cases h
      rfl

theorem map_eq_error {g : α → β} {e : ε} : (g <$> x) = .error e ↔ x = .error e := by
  cases x with
  | error e' =>
    change (Except.error e' : Except ε β) = .error e ↔ _
    constructor
    · intro h
      cases h
      rfl
    · intro h
      cases h
      rfl
  | ok a =>
    constructor
    · intro h
      cases h
    · intro h
      cases h

/-- A computation whose errors are relabelled succeeds when the computation does. -/
theorem mapError_eq_ok {ε' : Type*} {g : ε → ε'} {a : α} :
    x.mapError g = .ok a ↔ x = .ok a := by
  cases x with
  | error e => exact ⟨nofun, nofun⟩
  | ok a' => exact ⟨fun h => by cases h; rfl, fun h => by cases h; rfl⟩

/-- A relabelled error is the label of an error of the computation. -/
theorem mapError_eq_error {ε' : Type*} {g : ε → ε'} {e' : ε'} :
    x.mapError g = .error e' ↔ ∃ e, x = .error e ∧ g e = e' := by
  cases x with
  | error e =>
    constructor
    · intro h
      cases h
      exact ⟨e, rfl, rfl⟩
    · rintro ⟨e₀, h, rfl⟩
      cases h
      rfl
  | ok a' =>
    constructor
    · intro h
      cases h
    · rintro ⟨e₀, h, -⟩
      cases h

@[simp] theorem pure_eq_ok {a b : α} : (pure a : Except ε α) = .ok b ↔ a = b :=
  ⟨fun h => by cases h; rfl, fun h => h ▸ rfl⟩

@[simp] theorem throw_ne_ok {e : ε} {b : α} : (throw e : Except ε α) ≠ .ok b := nofun

@[simp] theorem ok_bind (a : α) : (Except.ok a >>= f) = f a := rfl

@[simp] theorem error_bind (e : ε) : (Except.error e >>= f) = .error e := rfl

/-! ### In-place updates -/

section InPlace

variable {ε σ α β : Type u}

/-- A bind runs its first computation, and the rest from the state it leaves when it returns. -/
theorem run_bind (x : EStateM ε σ α) (f : α → EStateM ε σ β) (s : σ) :
    (x >>= f).run s = match x.run s with
      | .ok a s' => (f a).run s'
      | .error e s' => .error e s' := rfl

@[simp] theorem run_bind_get (f : σ → EStateM ε σ α) (s : σ) :
    (get >>= f).run s = (f s).run s := rfl

@[simp] theorem run_bind_modify (g : σ → σ) (f : PUnit → EStateM ε σ α) (s : σ) :
    (modify g >>= f).run s = (f ⟨⟩).run (g s) := rfl

@[simp] theorem run_modify (g : σ → σ) (s : σ) :
    (modify g : EStateM ε σ PUnit).run s = .ok ⟨⟩ (g s) := rfl

@[simp] theorem run_set (s s' : σ) : (set s' : EStateM ε σ PUnit).run s = .ok ⟨⟩ s' := rfl

@[simp] theorem run_bind_set (s s' : σ) (f : PUnit → EStateM ε σ α) :
    (set s' >>= f).run s = (f ⟨⟩).run s' := rfl

@[simp] theorem run_throw (e : ε) (s : σ) : (throw e : EStateM ε σ α).run s = .error e s := rfl

@[simp] theorem run_bind_throw (e : ε) (f : α → EStateM ε σ β) (s : σ) :
    (throw e >>= f).run s = .error e s := rfl

@[simp] theorem run_bind_pure (a : α) (f : α → EStateM ε σ β) (s : σ) :
    (pure a >>= f).run s = (f a).run s := rfl

@[simp] theorem run_bind_liftExcept (x : Except ε α) (f : α → EStateM ε σ β) (s : σ) :
    (liftExcept x >>= f).run s = match x with
      | .ok a => (f a).run s
      | .error e => .error e s := by
  cases x <;> rfl

@[simp] theorem run_ite (c : Prop) [Decidable c] (x y : EStateM ε σ α) (s : σ) :
    (if c then x else y).run s = if c then x.run s else y.run s := by
  split <;> rfl

@[simp] theorem run_bind_ite (c : Prop) [Decidable c] (x y : EStateM ε σ α)
    (f : α → EStateM ε σ β) (s : σ) :
    ((if c then x else y) >>= f).run s = if c then (x >>= f).run s else (y >>= f).run s := by
  split <;> rfl

/-- **A loop whose every step returns keeping `P` returns keeping `P`.** -/
theorem run_forM_invariant {γ : Type*} (P : σ → Prop) {l : List γ} {f : γ → EStateM ε σ PUnit}
    (hf : ∀ a ∈ l, ∀ s, P s → ∃ s', (f a).run s = .ok ⟨⟩ s' ∧ P s') :
    ∀ s, P s → ∃ s', (l.forM f).run s = .ok ⟨⟩ s' ∧ P s' := by
  induction l with
  | nil =>
    intro s hs
    exact ⟨s, rfl, hs⟩
  | cons a l ih =>
    intro s hs
    -- the first step, then the rest of the loop from where it left the state
    obtain ⟨s₁, h₁, hs₁⟩ := hf a List.mem_cons_self s hs
    obtain ⟨s₂, h₂, hs₂⟩ := ih (fun b hb => hf b (List.mem_cons_of_mem a hb)) s₁ hs₁
    refine ⟨s₂, ?_, hs₂⟩
    change (f a >>= fun _ => l.forM f).run s = _
    rw [run_bind, h₁]
    exact h₂

/-- A handler runs from the state the throw left. -/
theorem run_tryCatch (x : EStateM ε σ α) (handler : ε → EStateM ε σ α) (s : σ) :
    (tryCatch x handler).run s = match x.run s with
      | .ok a s' => .ok a s'
      | .error e s' => (handler e).run s' := by
  show EStateM.tryCatch x handler s = _
  unfold EStateM.tryCatch EStateM.run
  cases x s <;> rfl

/-- The state a computation leaves, whether it returns or throws. -/
def stateOf : EStateM.Result ε σ α → σ
  | .ok _ s => s
  | .error _ s => s

@[simp] theorem stateOf_ok (a : α) (s : σ) : stateOf (.ok a s : EStateM.Result ε σ α) = s := rfl

@[simp] theorem stateOf_error (e : ε) (s : σ) :
    stateOf (.error e s : EStateM.Result ε σ α) = s := rfl

/-- A result thrown away leaves the state where the computation left it. -/
@[simp] theorem stateOf_run_bind_pure (x : EStateM ε σ α) (b : β) (s : σ) :
    stateOf ((x >>= fun _ => pure b).run s) = stateOf (x.run s) := by
  rw [run_bind]
  cases x.run s <;> rfl

/-- **A loop whose every step keeps `P`, whether it returns or throws, keeps `P`.** -/
theorem stateOf_run_forM {γ : Type*} (P : σ → Prop) {l : List γ} {f : γ → EStateM ε σ PUnit}
    (hf : ∀ a ∈ l, ∀ s, P s → P (stateOf ((f a).run s))) :
    ∀ s, P s → P (stateOf ((l.forM f).run s)) := by
  induction l with
  | nil =>
    intro s hs
    exact hs
  | cons a l ih =>
    intro s hs
    have h₁ := hf a List.mem_cons_self s hs
    change P (stateOf ((f a >>= fun _ => l.forM f).run s))
    rw [run_bind]
    -- a throw ends the loop where the step left the state
    cases hrun : (f a).run s with
    | ok u s₁ =>
      rw [hrun] at h₁
      exact ih (fun b hb => hf b (List.mem_cons_of_mem a hb)) s₁ h₁
    | error e s₁ =>
      rw [hrun] at h₁
      exact h₁

end InPlace

end Fallible
