import Mathlib

/-!
# A loop with an early exit

`run step done xs s` is the loop

```
for x in xs:
  s := step x s
  if done s: return (true, s)
return (false, s)
```

that threads a state through the elements of a list and stops after the first
element whose step makes the exit condition hold.

`run_induction` is its invariant rule. The invariant is indexed by the elements
processed so far, so that it can say what the state has collected from them:
if it is preserved by one step, it holds at the end for some prefix of the list.
`done_of_run_eq_true` says that an early exit leaves a state satisfying the
exit condition.
-/

namespace SearchLoop

variable {α σ : Type*} (step : α → σ → σ) (done : σ → Bool)

/-- Step through `xs`, stopping after the first step that makes `done` hold. -/
def run : List α → σ → Bool × σ
  | [], s => (false, s)
  | x :: xs, s => if done (step x s) then (true, step x s) else run xs (step x s)

@[simp] theorem run_nil (s : σ) : run step done [] s = (false, s) := rfl

theorem run_cons_of_done {x : α} {s : σ} (xs : List α) (h : done (step x s) = true) :
    run step done (x :: xs) s = (true, step x s) := by
  rw [run, if_pos h]

theorem run_cons_of_not_done {x : α} {s : σ} (xs : List α) (h : done (step x s) = false) :
    run step done (x :: xs) s = run step done xs (step x s) := by
  rw [run, if_neg (by simp [h])]

/-- **Invariant rule.** An invariant over the processed elements that one step
preserves holds of the final state, for some prefix of the list. -/
theorem run_induction (I : List α → σ → Prop)
    (hstep : ∀ pre x s, I pre s → I (pre ++ [x]) (step x s)) :
    ∀ (xs pre : List α) (s : σ), I pre s →
      ∃ ys, ys <+: xs ∧ I (pre ++ ys) (run step done xs s).2
  | [], pre, s, hs => ⟨[], List.nil_prefix, by simpa using hs⟩
  | x :: xs, pre, s, hs => by
    have hx := hstep pre x s hs
    cases hd : done (step x s) with
    | true =>
      rw [run_cons_of_done step done xs hd]
      exact ⟨[x], List.cons_prefix_cons.mpr ⟨rfl, List.nil_prefix⟩, hx⟩
    | false =>
      rw [run_cons_of_not_done step done xs hd]
      -- the rest of the loop starts from the state after `x`
      obtain ⟨ys, hys, hI⟩ := run_induction I hstep xs (pre ++ [x]) (step x s) hx
      refine ⟨x :: ys, List.cons_prefix_cons.mpr ⟨rfl, hys⟩, ?_⟩
      simpa using hI

/-- An early exit leaves a state that satisfies the exit condition. -/
theorem done_of_run_eq_true :
    ∀ (xs : List α) (s : σ), (run step done xs s).1 = true → done (run step done xs s).2 = true
  | [], _, h => by simp at h
  | x :: xs, s, h => by
    cases hd : done (step x s) with
    | true =>
      rw [run_cons_of_done step done xs hd]
      exact hd
    | false =>
      rw [run_cons_of_not_done step done xs hd] at h ⊢
      exact done_of_run_eq_true xs (step x s) h

end SearchLoop
