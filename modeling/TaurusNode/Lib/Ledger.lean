import Mathlib

/-!
# Requests answered exactly once

A component takes requests, each with a token to answer it by (a callback), keeps some tokens
pending and answers others. On each input, `step : σ → α → σ × List (τ × ρ)` moves to a new state
and emits answers, each a token and a result; `run step s xs` is the last state and every answer
of the run, in order.

* `inv_run`: an invariant that each step keeps holds after every run.
* `perm_run` (ledger rule): when each step, from a state that satisfies the invariant, leaves the
  tokens pending after it together with the tokens it answers equal, up to order, to the tokens
  pending before it together with those its input brings, then so does a run: the tokens pending
  at the end and every token answered are those pending at the start and every token brought.
* `count_run`: so, with distinct tokens, each token brought is answered exactly once or is still
  pending, and `nodup_run`: no token is answered twice.
* `forall_answers_run` (history rule): a fact about each answer, in terms of the inputs up to it,
  that each step makes true of its own answers.
* `queue_foldl` (queue rule): for a component that delivers a queue into a log, a step at a time
  off the queue's front, what a run took off the queue and what the log gained along it.
-/

namespace Ledger

open scoped List

variable {σ α τ ρ : Type*} (step : σ → α → σ × List (τ × ρ))

/-- The last state of a run and every answer of its steps, in order. -/
def run : σ → List α → σ × List (τ × ρ)
  | s, [] => (s, [])
  | s, x :: xs =>
    let r := run (step s x).1 xs
    (r.1, (step s x).2 ++ r.2)

@[simp] theorem run_nil (s : σ) : run step s [] = (s, []) := rfl

@[simp] theorem run_cons (s : σ) (x : α) (xs : List α) :
    run step s (x :: xs) =
      ((run step (step s x).1 xs).1, (step s x).2 ++ (run step (step s x).1 xs).2) := rfl

/-- A run over two lists of inputs is the run over the first, then the run over the second. -/
theorem run_append (xs ys : List α) (s : σ) :
    run step s (xs ++ ys) =
      ((run step (run step s xs).1 ys).1, (run step s xs).2 ++ (run step (run step s xs).1 ys).2) := by
  induction xs generalizing s with
  | nil => rfl
  | cons x xs ih => simp [ih]

section Rules

variable (inv : σ → Prop) (ok : α → Prop)

/-- **Invariant rule.** -/
theorem inv_run (hstep : ∀ s x, inv s → ok x → inv (step s x).1) :
    ∀ {xs : List α} {s : σ}, inv s → (∀ x ∈ xs, ok x) → inv (run step s xs).1
  | [], _, hs, _ => hs
  | x :: xs, s, hs, hok =>
    have hrest := inv_run hstep (hstep s x hs (hok x List.mem_cons_self))
      fun y (hy : y ∈ xs) => hok y (List.mem_cons_of_mem x hy)
    hrest

variable (pending : σ → List τ) (brings : α → List τ)

/-- **Ledger rule.** Tokens are neither lost nor made up along a run, when no step loses or makes
up one. -/
theorem perm_run (hinv : ∀ s x, inv s → ok x → inv (step s x).1)
    (hstep : ∀ s x, inv s → ok x →
      (pending (step s x).1 ++ (step s x).2.map Prod.fst).Perm (pending s ++ brings x)) :
    ∀ {xs : List α} {s : σ}, inv s → (∀ x ∈ xs, ok x) →
      (pending (run step s xs).1 ++ (run step s xs).2.map Prod.fst).Perm
        (pending s ++ xs.flatMap brings)
  | [], s, _, _ => by simp
  | x :: xs, s, hs, hok => by
    have hx := hok x List.mem_cons_self
    have ih := perm_run hinv hstep (hinv s x hs hx) fun y hy => hok y (List.mem_cons_of_mem x hy)
    -- the answers of the first step, then the ledger of the rest of the run
    calc (pending (run step s (x :: xs)).1 ++ (run step s (x :: xs)).2.map Prod.fst)
      _ = pending (run step (step s x).1 xs).1 ++
            ((step s x).2.map Prod.fst ++ (run step (step s x).1 xs).2.map Prod.fst) := by
        simp
      _ ~ (step s x).2.map Prod.fst ++
            (pending (run step (step s x).1 xs).1 ++ (run step (step s x).1 xs).2.map Prod.fst) :=
        List.perm_append_comm_assoc _ _ _
      _ ~ (step s x).2.map Prod.fst ++ (pending (step s x).1 ++ xs.flatMap brings) :=
        ih.append_left _
      _ ~ (pending (step s x).1 ++ (step s x).2.map Prod.fst) ++ xs.flatMap brings := by
        rw [← List.append_assoc]
        exact List.perm_append_comm.append_right _
      _ ~ (pending s ++ brings x) ++ xs.flatMap brings := (hstep s x hs hx).append_right _
      _ = pending s ++ (x :: xs).flatMap brings := by simp

variable {inv ok pending brings}

/-- **Exactly once.** With distinct tokens, each token brought along a run is answered once and not
pending, or pending once and not answered. -/
theorem count_run (hinv : ∀ s x, inv s → ok x → inv (step s x).1)
    (hstep : ∀ s x, inv s → ok x →
      (pending (step s x).1 ++ (step s x).2.map Prod.fst).Perm (pending s ++ brings x))
    [DecidableEq τ] {xs : List α} {s : σ} (hs : inv s) (hok : ∀ x ∈ xs, ok x)
    (hnodup : (pending s ++ xs.flatMap brings).Nodup) {t : τ} (ht : t ∈ xs.flatMap brings) :
    ((run step s xs).2.map Prod.fst).count t + (pending (run step s xs).1).count t = 1 := by
  have hperm := perm_run step inv ok pending brings hinv hstep hs hok
  have hone : (pending s ++ xs.flatMap brings).count t = 1 :=
    List.count_eq_one_of_mem hnodup (List.mem_append_right _ ht)
  rw [← hperm.count_eq t, List.count_append] at hone
  omega

/-- No token is answered twice along a run, when the tokens are distinct. -/
theorem nodup_run (hinv : ∀ s x, inv s → ok x → inv (step s x).1)
    (hstep : ∀ s x, inv s → ok x →
      (pending (step s x).1 ++ (step s x).2.map Prod.fst).Perm (pending s ++ brings x))
    {xs : List α} {s : σ} (hs : inv s) (hok : ∀ x ∈ xs, ok x)
    (hnodup : (pending s ++ xs.flatMap brings).Nodup) :
    ((run step s xs).2.map Prod.fst).Nodup :=
  ((perm_run step inv ok pending brings hinv hstep hs hok).nodup_iff.mpr hnodup).of_append_right

end Rules

/-- **History rule.** A fact about answers, true of a history once it is true of a shorter
one, holds of every answer of a run when each step makes it true of its own answers from a state
where an invariant of the history holds, and keeps that invariant. -/
theorem forall_answers_run (inv : List α → σ → Prop) (Q : List α → τ × ρ → Prop)
    (hmono : ∀ h h' a, Q h a → Q (h ++ h') a)
    (hstep : ∀ h s x, inv h s → inv (h ++ [x]) (step s x).1 ∧ ∀ a ∈ (step s x).2, Q (h ++ [x]) a) :
    ∀ (xs : List α) (h : List α) (s : σ), inv h s → ∀ a ∈ (run step s xs).2, Q (h ++ xs) a
  | [], _, _, _, a, ha => by simp at ha
  | x :: xs, h, s, hs, a, ha => by
    obtain ⟨hs', hQ⟩ := hstep h s x hs
    rw [run_cons, List.mem_append] at ha
    rcases ha with hfirst | hrest
    · -- an answer of the first step, true of the history up to it and so of the whole run
      have := hmono _ xs a (hQ a hfirst)
      rwa [List.append_assoc, List.singleton_append] at this
    · have := forall_answers_run inv Q hmono hstep xs (h ++ [x]) _ hs' a hrest
      rwa [List.append_assoc, List.singleton_append] at this

/-! ### Queues that deliver into a log -/

section Queues

variable {σ α β γ : Type*} (step : σ → α → σ) (inv : σ → Prop) (ok : α → Prop)
  (queue : σ → List β) (log : σ → List γ) (brings : α → List β) (R : List β → List γ → Prop)

/-- **Queue rule.** A component keeps a queue, which inputs extend at its back, and a log that
only grows. When each step takes a prefix of the queue off its front and adds to the log
something related to it by `R`, and `R` composes, then along a run the queue at the end is what
was queued with a prefix taken off, and that prefix is related by `R` to what the log gained. -/
theorem queue_foldl (hinv : ∀ s x, inv s → ok x → inv (step s x)) (hnil : R [] [])
    (happ : ∀ {a c a' c'}, R a c → R a' c' → R (a ++ a') (c ++ c'))
    (hstep : ∀ s x, inv s → ok x → ∃ a c, queue s ++ brings x = a ++ queue (step s x) ∧
      log (step s x) = log s ++ c ∧ R a c) :
    ∀ (xs : List α) {s : σ}, inv s → (∀ x ∈ xs, ok x) →
      ∃ a c, queue s ++ xs.flatMap brings = a ++ queue (xs.foldl step s) ∧
        log (xs.foldl step s) = log s ++ c ∧ R a c
  | [], _, _, _ => ⟨[], [], by simp, by simp, hnil⟩
  | x :: xs, s, hs, hok => by
    have hx := hok x List.mem_cons_self
    obtain ⟨a₁, c₁, hq₁, hl₁, hR₁⟩ := hstep s x hs hx
    obtain ⟨a₂, c₂, hq₂, hl₂, hR₂⟩ := queue_foldl hinv hnil happ hstep xs (hinv s x hs hx)
      fun y (hy : y ∈ xs) => hok y (List.mem_cons_of_mem x hy)
    refine ⟨a₁ ++ a₂, c₁ ++ c₂, ?_, ?_, happ hR₁ hR₂⟩
    · -- what the first step took, then what the rest of the run took
      calc queue s ++ (x :: xs).flatMap brings
        _ = (queue s ++ brings x) ++ xs.flatMap brings := by simp
        _ = a₁ ++ (queue (step s x) ++ xs.flatMap brings) := by rw [hq₁, List.append_assoc]
        _ = (a₁ ++ a₂) ++ queue ((x :: xs).foldl step s) := by
          rw [hq₂, List.foldl_cons, List.append_assoc]
    · rw [List.foldl_cons, hl₂, hl₁, List.append_assoc]

end Queues

end Ledger
