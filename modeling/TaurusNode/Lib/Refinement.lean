import Mathlib
import TaurusNode.Lib.Fallible

/-!
# Runs of a step that throws, and refinement through a relational specification

A component that answers each input with an output and a new state, or throws,
`step : σ → α → Except ε (β × σ)`, runs over a list of inputs as `run step s xs`: the outputs in
order and the last state, or the first error. A specification of such a component is a relation
`spec : κ → α → β → κ → Prop` between an abstract state, an input, the output and the next
abstract state; its runs are `Runs spec`.

Two rules relate a component to a specification, each through a relation between their states:

* `run_refines` (the component refines the specification): every step of the component from a
  state related to an abstract one is a step of the specification to a related state; then every
  run of the component that does not throw is a run of the specification.
* `runs_simulated` (the component implements the specification, within a budget): every step of
  the specification from an abstract state related to a state of the component, with budget left,
  is taken by the component, with the same output, to a related state with one less; then every
  run of the specification no longer than the budget is a run of the component that does not
  throw, with the same outputs. The budget is where a component with bounded counters states how
  long its counters last.

Chained, they give what one implementation of a specification owes another on the same inputs:
what the first returns without throwing, the second returns too (`run_transfer`).
-/

namespace Refinement

variable {σ τ κ α β ε ε' : Type*}

/-- The outputs of a run, in order, and its last state; or the first error. -/
def run (step : σ → α → Except ε (β × σ)) : σ → List α → Except ε (List β × σ)
  | s, [] => pure ([], s)
  | s, x :: xs => do
    let r ← step s x
    let rs ← run step r.2 xs
    pure (r.1 :: rs.1, rs.2)

theorem run_cons_eq_ok {step : σ → α → Except ε (β × σ)} {s s' : σ} {x : α} {xs : List α}
    {bs : List β} :
    run step s (x :: xs) = .ok (bs, s') ↔
      ∃ b s₁ bs', step s x = .ok (b, s₁) ∧ run step s₁ xs = .ok (bs', s') ∧ bs = b :: bs' := by
  simp only [run, Fallible.bind_eq_ok, Fallible.pure_eq_ok]
  constructor
  · rintro ⟨⟨b, s₁⟩, hstep, ⟨bs', s₂⟩, hrun, heq⟩
    cases heq
    exact ⟨b, s₁, bs', hstep, hrun, rfl⟩
  · rintro ⟨b, s₁, bs', hstep, hrun, rfl⟩
    exact ⟨(b, s₁), hstep, (bs', s'), hrun, rfl⟩

/-- The runs of a relational specification: from an abstract state, the inputs, the outputs, and
the last abstract state. -/
inductive Runs (spec : κ → α → β → κ → Prop) : κ → List α → List β → κ → Prop
  | nil (a : κ) : Runs spec a [] [] a
  | cons {a a₁ a' : κ} {x : α} {b : β} {xs : List α} {bs : List β} :
      spec a x b a₁ → Runs spec a₁ xs bs a' → Runs spec a (x :: xs) (b :: bs) a'

section Refine

variable {step : σ → α → Except ε (β × σ)} {spec : κ → α → β → κ → Prop} (R : κ → σ → Prop)

/-- **Refinement rule.** A component whose every step from a related state is a step of the
specification to a related state runs, when it does not throw, as the specification does. -/
theorem run_refines (hstep : ∀ a s x b s', R a s → step s x = .ok (b, s') →
      ∃ a', spec a x b a' ∧ R a' s') :
    ∀ {xs : List α} {a : κ} {s : σ} {bs : List β} {s' : σ}, R a s →
      run step s xs = .ok (bs, s') → ∃ a', Runs spec a xs bs a' ∧ R a' s'
  | [], a, s, bs, s', hR, hrun => by
    simp only [run, Fallible.pure_eq_ok, Prod.mk.injEq] at hrun
    obtain ⟨rfl, rfl⟩ := hrun
    exact ⟨a, .nil a, hR⟩
  | x :: xs, a, s, bs, s', hR, hrun => by
    obtain ⟨b, s₁, bs', hstep₁, hrun₁, rfl⟩ := run_cons_eq_ok.mp hrun
    obtain ⟨a₁, hspec, hR₁⟩ := hstep a s x b s₁ hR hstep₁
    obtain ⟨a', hruns, hR'⟩ := run_refines hstep hR₁ hrun₁
    exact ⟨a', .cons hspec hruns, hR'⟩

end Refine

section Simulate

variable {step : τ → α → Except ε (β × τ)} {spec : κ → α → β → κ → Prop} (R : ℕ → κ → τ → Prop)

/-- **Simulation rule.** A component that takes every step of the specification from a related
state with budget left, to a related state with one less, runs every run of the specification no
longer than its budget, with the same outputs. -/
theorem runs_simulated (hstep : ∀ n a t x b a', R (n + 1) a t → spec a x b a' →
      ∃ t', step t x = .ok (b, t') ∧ R n a' t') :
    ∀ {a : κ} {xs : List α} {bs : List β} {a' : κ} {n : ℕ} {t : τ}, Runs spec a xs bs a' →
      R (xs.length + n) a t → ∃ t', run step t xs = .ok (bs, t') ∧ R n a' t'
  | _, _, _, _, n, t, .nil a, hR => ⟨t, rfl, by rwa [List.length_nil, Nat.zero_add] at hR⟩
  | _, _, _, _, n, t, .cons hspec hruns, hR => by
    -- the first step spends one unit of the budget, the rest of the run the others
    rw [List.length_cons, Nat.add_right_comm] at hR
    obtain ⟨t₁, hstep₁, hR₁⟩ := hstep _ _ t _ _ _ hR hspec
    obtain ⟨t', hrun, hR'⟩ := runs_simulated hstep hruns hR₁
    exact ⟨t', run_cons_eq_ok.mpr ⟨_, t₁, _, hstep₁, hrun, rfl⟩, hR'⟩

end Simulate

/-- **Transfer.** Given a component that refines a specification and one that implements it
within a budget, from states related through one abstract state: what the first returns without
throwing over inputs no more than the budget, the second returns too. -/
theorem run_transfer {step : σ → α → Except ε (β × σ)} {step' : τ → α → Except ε' (β × τ)}
    {spec : κ → α → β → κ → Prop} (R : κ → σ → Prop) (R' : ℕ → κ → τ → Prop)
    (hrefine : ∀ a s x b s', R a s → step s x = .ok (b, s') → ∃ a', spec a x b a' ∧ R a' s')
    (hsim : ∀ n a t x b a', R' (n + 1) a t → spec a x b a' →
      ∃ t', step' t x = .ok (b, t') ∧ R' n a' t')
    {a : κ} {s : σ} {t : τ} {xs : List α} {bs : List β} {s' : σ} {n : ℕ}
    (hR : R a s) (hR' : R' (xs.length + n) a t) (hrun : run step s xs = .ok (bs, s')) :
    ∃ t', run step' t xs = .ok (bs, t') := by
  obtain ⟨a', hruns, -⟩ := run_refines R hrefine hR hrun
  obtain ⟨t', hrun', -⟩ := runs_simulated R' hsim hruns hR'
  exact ⟨t', hrun'⟩

end Refinement
