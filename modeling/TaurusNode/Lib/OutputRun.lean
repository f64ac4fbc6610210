import Mathlib

/-!
# Runs of a step that emits

A reactive component that, on each input, moves to a new state and may emit one message,
`step : σ → α → σ × Option β`, runs over a list of inputs as `run step s xs`: the last state and
everything emitted, in order. Two rules carry a fact about one step to every run:

* `length_run_add_le` (credit rule): when what a step emits, plus a potential of the state after
  it, never exceeds the potential before it plus a credit its input grants, a run emits at most
  the first potential plus the credits of its inputs;
* `keys_run` (cursor rule): when a step never moves a cursor back and stamps what it emits with
  a key at or above the cursor it starts from and below the one it leaves, the keys emitted along
  a run increase strictly and lie between the first and the last cursor.
-/

namespace OutputRun

variable {σ α β : Type*} (step : σ → α → σ × Option β)

/-- The last state of a run and what its steps emitted, in order. -/
def run : σ → List α → σ × List β
  | s, [] => (s, [])
  | s, x :: xs =>
    let r := run (step s x).1 xs
    (r.1, (step s x).2.toList ++ r.2)

@[simp] theorem run_nil (s : σ) : run step s [] = (s, []) := rfl

@[simp] theorem run_cons (s : σ) (x : α) (xs : List α) :
    run step s (x :: xs) =
      ((run step (step s x).1 xs).1, (step s x).2.toList ++ (run step (step s x).1 xs).2) := rfl

/-- **Credit rule.** A potential that pays for each message a step emits, topped up only by the
credits of the inputs, bounds what a whole run emits. -/
theorem length_run_add_le (c : σ → ℕ) (credit : α → ℕ)
    (hstep : ∀ s x, (step s x).2.toList.length + c (step s x).1 ≤ c s + credit x) :
    ∀ (xs : List α) (s : σ),
      (run step s xs).2.length + c (run step s xs).1 ≤ c s + (xs.map credit).sum
  | [], s => by simp
  | x :: xs, s => by
    have ih := length_run_add_le c credit hstep xs (step s x).1
    have h₁ := hstep s x
    simp only [run_cons, List.length_append, List.map_cons, List.sum_cons]
    omega

section Cursor

variable (c : σ → ℕ) (key : β → Option ℕ) (ok : α → Prop)

/-- A cursor that no step moves back is not moved back by a run. -/
theorem le_run (hmono : ∀ s x, ok x → c s ≤ c (step s x).1) :
    ∀ {xs : List α} {s : σ}, (∀ x ∈ xs, ok x) → c s ≤ c (run step s xs).1
  | [], _, _ => Nat.le_refl _
  | x :: _, s, hok =>
    Nat.le_trans (hmono s x (hok x List.mem_cons_self))
      (le_run hmono fun y hy => hok y (List.mem_cons_of_mem x hy))

/-- **Cursor rule.** Along a run of inputs that never move the cursor back, each key emitted lies
at or above the cursor of its step and below the cursor that step leaves, so the keys increase. -/
theorem keys_run (hmono : ∀ s x, ok x → c s ≤ c (step s x).1)
    (hkey : ∀ s x b k, ok x → (step s x).2 = some b → key b = some k →
      c s ≤ k ∧ k < c (step s x).1) :
    ∀ {xs : List α} {s : σ}, (∀ x ∈ xs, ok x) →
      ((run step s xs).2.filterMap key).Pairwise (· < ·) ∧
        ∀ k ∈ (run step s xs).2.filterMap key, c s ≤ k ∧ k < c (run step s xs).1
  | [], _, _ => by simp
  | x :: xs, s, hok => by
    have hx : ok x := hok x List.mem_cons_self
    have hxs : ∀ y ∈ xs, ok y := fun y hy => hok y (List.mem_cons_of_mem x hy)
    obtain ⟨ihsorted, ihbounds⟩ := keys_run hmono hkey hxs (s := (step s x).1)
    have hlast : c (step s x).1 ≤ c (run step (step s x).1 xs).1 := le_run step c ok hmono hxs
    -- the keys the first step emitted, all below the cursor it leaves
    have hfirst : ∀ k ∈ (step s x).2.toList.filterMap key, c s ≤ k ∧ k < c (step s x).1 := by
      intro k hk
      obtain ⟨b, hb, hbk⟩ := List.mem_filterMap.mp hk
      exact hkey s x b k hx (Option.mem_toList.mp hb) hbk
    simp only [run_cons, List.filterMap_append, List.pairwise_append, List.mem_append]
    refine ⟨⟨?_, ihsorted, ?_⟩, ?_⟩
    · -- a step emits at most one message, so at most one key
      cases (step s x).2 with
      | none => exact List.Pairwise.nil
      | some b => cases hb : key b <;> simp [hb]
    · intro a ha b hb
      exact Nat.lt_of_lt_of_le (hfirst a ha).2 (ihbounds b hb).1
    · rintro k (hk | hk)
      · exact ⟨(hfirst k hk).1, Nat.lt_of_lt_of_le (hfirst k hk).2 hlast⟩
      · exact ⟨Nat.le_trans (hmono s x hx) (ihbounds k hk).1, (ihbounds k hk).2⟩

end Cursor

end OutputRun
