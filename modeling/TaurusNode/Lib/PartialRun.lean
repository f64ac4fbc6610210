import Mathlib

/-!
# Runs of a partial step function

A system whose step on an input may fail, `step : σ → α → Option σ`, runs over a
list of inputs as `List.foldlM step s xs`, which fails as soon as one step fails.
Two rules carry a fact about one step to every run that does not fail:

* `foldlM_invariant`: a property that every step preserves holds at the end of
  the run (the `Option` case of `List.satisfiesM_foldlM`);
* `foldlM_rel`: a relation between the first and the last state, indexed by the
  inputs of the run, that one step establishes and that composes along the list.

A third rule relates two systems on the same inputs: when each step of the first from a state
related to a state of the second is matched by a step of the second, every run of the first is
matched by a run of the second (`foldlM_simulation`). Its budgeted form
(`foldlM_simulation_budget`) indexes the relation by what is left of a budget that each input
spends a cost of, and asks of each step only on the inputs of the run: a system whose states must
stay within a bound is matched on every run whose inputs' costs fit the bound.
-/

namespace PartialRun

variable {σ α : Type*} {step : σ → α → Option σ}

theorem foldlM_cons_eq_some {s s' : σ} {x : α} {xs : List α} :
    (x :: xs).foldlM step s = some s' ↔ ∃ s₁, step s x = some s₁ ∧ xs.foldlM step s₁ = some s' := by
  rw [List.foldlM_cons]
  exact Option.bind_eq_some_iff

/-- **Invariant rule.** A property that each step on an input of the list preserves holds at the
end of a run that does not fail. -/
theorem foldlM_invariant (P : σ → Prop) {xs : List α}
    (hstep : ∀ s, P s → ∀ x ∈ xs, ∀ s', step s x = some s' → P s') {s s' : σ} (hs : P s)
    (h : xs.foldlM step s = some s') : P s' :=
  SatisfiesM_Option_eq.mp
    (List.satisfiesM_foldlM hs fun s hs x hx => SatisfiesM_Option_eq.mpr (hstep s hs x hx)) s' h

/-- **Relation rule.** A relation indexed by inputs that holds of the empty run, of each step, and
of two runs one after the other holds of a whole run. -/
theorem foldlM_rel (R : σ → σ → List α → Prop) (hrefl : ∀ s, R s s [])
    (htrans : ∀ {s₁ s₂ s₃ xs ys}, R s₁ s₂ xs → R s₂ s₃ ys → R s₁ s₃ (xs ++ ys))
    (hstep : ∀ {s s' x}, step s x = some s' → R s s' [x]) :
    ∀ {xs : List α} {s s' : σ}, xs.foldlM step s = some s' → R s s' xs
  | [], s, s', h => by
    cases h
    exact hrefl s
  | x :: xs, s, s', h => by
    obtain ⟨s₁, h₁, h⟩ := foldlM_cons_eq_some.mp h
    exact htrans (hstep h₁) (foldlM_rel R hrefl htrans hstep h)

/-- **Simulation rule.** When every step of `step` from a state related to `t` is matched by a
step of `step'` from `t` to a related state, every run of `step` is matched so by a run of
`step'`. -/
theorem foldlM_simulation {τ : Type*} (step' : τ → α → Option τ) (R : σ → τ → Prop)
    (hstep : ∀ {s t x s'}, R s t → step s x = some s' → ∃ t', step' t x = some t' ∧ R s' t') :
    ∀ {xs : List α} {s : σ} {t : τ} {s' : σ}, R s t → xs.foldlM step s = some s' →
      ∃ t', xs.foldlM step' t = some t' ∧ R s' t'
  | [], s, t, s', hR, h => by
    cases h
    exact ⟨t, rfl, hR⟩
  | x :: xs, s, t, s', hR, h => by
    obtain ⟨s₁, h₁, h⟩ := foldlM_cons_eq_some.mp h
    obtain ⟨t₁, ht₁, hR₁⟩ := hstep hR h₁
    obtain ⟨t', ht', hR'⟩ := foldlM_simulation step' R hstep hR₁ h
    exact ⟨t', foldlM_cons_eq_some.mpr ⟨t₁, ht₁, ht'⟩, hR'⟩

/-- **Simulation rule with a budget.** When every step of `step` on an input `x` of the run from a
state related to `t` with budget `c x + n` is matched by a step of `step'` from `t` to a state
related with budget `n`, every run of `step` from a state related with the inputs' total cost
and more is matched by a run of `step'`. -/
theorem foldlM_simulation_budget {τ : Type*} (step' : τ → α → Option τ) (c : α → ℕ)
    (R : ℕ → σ → τ → Prop) :
    ∀ {xs : List α}, (∀ x ∈ xs, ∀ {n s t s'}, R (c x + n) s t → step s x = some s' →
      ∃ t', step' t x = some t' ∧ R n s' t') →
    ∀ {n : ℕ} {s : σ} {t : τ} {s' : σ}, R ((xs.map c).sum + n) s t →
      xs.foldlM step s = some s' → ∃ t', xs.foldlM step' t = some t' ∧ R n s' t'
  | [], _, n, s, t, s', hR, h => by
    cases h
    exact ⟨t, rfl, by simpa using hR⟩
  | x :: xs, hstep, n, s, t, s', hR, h => by
    obtain ⟨s₁, h₁, h⟩ := foldlM_cons_eq_some.mp h
    -- the first input spends its cost, the rest of the run the others'
    rw [List.map_cons, List.sum_cons, Nat.add_assoc] at hR
    obtain ⟨t₁, ht₁, hR₁⟩ := hstep x List.mem_cons_self hR h₁
    obtain ⟨t', ht', hR'⟩ := foldlM_simulation_budget step' c R
      (fun y hy => hstep y (List.mem_cons_of_mem x hy)) hR₁ h
    exact ⟨t', foldlM_cons_eq_some.mpr ⟨t₁, ht₁, ht'⟩, hR'⟩

end PartialRun
