import Mathlib

/-!
# Descents along a parent function

A forest is given by a partial `parent` function. `Descent parent b l a` says that following
`parent` from `b` through the nodes `l`, `b` first, reaches `a`, which is not among them; `a` is
then an ancestor of `b` (`IsAncestor`).

* `Descent.prefix_of_length_le`: two descents from one node agree as far as the shorter goes, so
  the ancestors of a node are ordered by their distance from it.
* `isAncestor_of_disjoint`: when the descents from `b₁` and from `b₂` to a common ancestor `c`
  share no node, every common ancestor of `b₁` and `b₂` is an ancestor of `c`: `c` is the lowest.
* With a rank that drops by one from a node to its parent (`Ranked`), the nodes of a descent have
  strictly decreasing ranks, all above the node reached (`Descent.pairwise_rank_lt`,
  `Descent.rank_lt_of_mem`), and the descent between two nodes is unique (`Descent.unique`), so
  two descents to one node that end at different children share no node
  (`Descent.disjoint_of_getLast_ne`). A node of rank at least `n` descends to a node of rank `n`
  when every node above a floor has a parent (`exists_descent_rank`).
-/

namespace ParentTree

variable {α : Type*} {parent : α → Option α}

/-- Following `parent` from `b` through the nodes `l`, `b` first, reaches `a`. -/
inductive Descent (parent : α → Option α) : α → List α → α → Prop
  | nil (a : α) : Descent parent a [] a
  | cons {b p a : α} {l : List α} : parent b = some p → Descent parent p l a →
      Descent parent b (b :: l) a

/-- `a` is `b` or an ancestor of it. -/
def IsAncestor (parent : α → Option α) (a b : α) : Prop := ∃ l, Descent parent b l a

/-- The rank of a node is one more than its parent's. -/
def Ranked (parent : α → Option α) (rank : α → ℕ) : Prop :=
  ∀ b p, parent b = some p → rank p + 1 = rank b

namespace Descent

variable {a b c x : α} {l l₁ l₂ : List α}

theorem append (h₁ : Descent parent b l₁ c) (h₂ : Descent parent c l₂ a) :
    Descent parent b (l₁ ++ l₂) a := by
  induction h₁ with
  | nil => exact h₂
  | cons hp _ ih => exact .cons hp (ih h₂)

/-- One more step at the bottom of a descent. -/
theorem concat (h : Descent parent b l c) (hc : parent c = some a) :
    Descent parent b (l ++ [c]) a :=
  h.append (.cons hc (.nil a))

theorem isAncestor (h : Descent parent b l a) : IsAncestor parent a b := ⟨l, h⟩

/-- A descent that moves starts at its first node. -/
theorem mem_of_ne_nil (h : Descent parent b l a) (hl : l ≠ []) : b ∈ l := by
  cases h with
  | nil => exact absurd rfl hl
  | cons => exact List.mem_cons_self

/-- A descent starts at its first node, or is still at the node it reaches. -/
theorem head?_getD (h : Descent parent b l a) : l.head?.getD a = b := by
  cases h <;> rfl

/-- The last node of a descent that moves is a child of the node reached. -/
theorem parent_getLast (h : Descent parent b l a) (hl : l ≠ []) :
    parent (l.getLast hl) = some a := by
  induction h with
  | nil => exact absurd rfl hl
  | @cons b p a l hp hrest ih =>
    cases l with
    | nil =>
      -- `b` is the last node, and the rest of the descent does not move
      cases hrest
      exact hp
    | cons y l => exact ih (List.cons_ne_nil y l)

/-- A descent reads the parents of its own nodes alone. -/
theorem congr {parent' : α → Option α} (h : Descent parent b l a)
    (heq : ∀ x ∈ l, parent' x = parent x) : Descent parent' b l a := by
  induction h with
  | nil => exact .nil _
  | cons hp _ ih =>
    exact .cons ((heq _ List.mem_cons_self).trans hp)
      (ih fun x hx => heq x (List.mem_cons_of_mem _ hx))

/-- A descent through `l₁ ++ l₂` passes a node after `l₁`. -/
theorem split_append (h : Descent parent b (l₁ ++ l₂) a) :
    ∃ c, Descent parent b l₁ c ∧ Descent parent c l₂ a := by
  induction l₁ generalizing b with
  | nil => exact ⟨b, .nil b, h⟩
  | cons x l₁ ih =>
    cases h with
    | cons hp hrest =>
      obtain ⟨c, h₁, h₂⟩ := ih hrest
      exact ⟨c, .cons hp h₁, h₂⟩

/-- A node of a descent splits it in two. -/
theorem split_of_mem (h : Descent parent b l a) (hx : x ∈ l) :
    ∃ l₁ l₂, l = l₁ ++ x :: l₂ ∧ Descent parent b l₁ x ∧ Descent parent x (x :: l₂) a := by
  induction h with
  | nil => cases hx
  | @cons b p a l hp hrest ih =>
    rcases List.mem_cons.mp hx with rfl | hx
    · exact ⟨[], l, rfl, .nil x, .cons hp hrest⟩
    · obtain ⟨l₁, l₂, rfl, h₁, h₂⟩ := ih hx
      exact ⟨b :: l₁, l₂, rfl, .cons hp h₁, h₂⟩

/-- **Two descents from one node agree as far as the shorter one goes**, as each node has one
parent. -/
theorem prefix_of_length_le {a₁ a₂ : α} (h₁ : Descent parent b l₁ a₁)
    (h₂ : Descent parent b l₂ a₂) (hle : l₂.length ≤ l₁.length) :
    ∃ m, l₁ = l₂ ++ m ∧ Descent parent a₂ m a₁ := by
  induction h₂ generalizing l₁ with
  | nil => exact ⟨l₁, rfl, h₁⟩
  | @cons b p a₂ l₂ hp _ ih =>
    cases h₁ with
    | nil => exact absurd hle (by simp)
    | @cons _ p' _ l₁ hp' hrest₁ =>
      -- both descents take the one parent of `b`
      obtain rfl : p' = p := Option.some_injective _ (hp'.symm.trans hp)
      obtain ⟨m, rfl, hm⟩ := ih hrest₁ (by simpa using hle)
      exact ⟨m, rfl, hm⟩

end Descent

/-- **The descents to a common ancestor that share no node end at the lowest one.** A common
ancestor `a` of `b₁` and `b₂` that is not an ancestor of `c` lies strictly between `c` and both
`b₁` and `b₂`, so on both descents. -/
theorem isAncestor_of_disjoint {b₁ b₂ c a : α} {l₁ l₂ : List α}
    (h₁ : Descent parent b₁ l₁ c) (h₂ : Descent parent b₂ l₂ c) (hdis : ∀ x ∈ l₁, x ∉ l₂)
    (ha₁ : IsAncestor parent a b₁) (ha₂ : IsAncestor parent a b₂) : IsAncestor parent a c := by
  obtain ⟨m₁, hm₁⟩ := ha₁
  obtain ⟨m₂, hm₂⟩ := ha₂
  -- `a` below `c` on either side is an ancestor of `c`; otherwise it is a node of that descent
  have below : ∀ {b : α} {l m : List α}, Descent parent b l c → Descent parent b m a →
      IsAncestor parent a c ∨ a ∈ l := by
    intro b l m hl hm
    rcases le_total l.length m.length with hle | hle
    · obtain ⟨k, -, hk⟩ := hm.prefix_of_length_le hl hle
      exact .inl hk.isAncestor
    · obtain ⟨k, rfl, hk⟩ := hl.prefix_of_length_le hm hle
      by_cases hk0 : k = []
      · subst hk0
        cases hk
        exact .inl (Descent.nil _).isAncestor
      · exact .inr (List.mem_append_right m (hk.mem_of_ne_nil hk0))
  rcases below h₁ hm₁ with hc | ha₁
  · exact hc
  rcases below h₂ hm₂ with hc | ha₂
  · exact hc
  exact absurd ha₂ (hdis a ha₁)

/-! ### Ranked forests -/

section Ranked

variable {rank : α → ℕ} (hr : Ranked parent rank)
include hr

namespace Descent

variable {a b x : α} {l l' : List α}

/-- A descent goes down one rank per node. -/
theorem rank_add_length (h : Descent parent b l a) : rank a + l.length = rank b := by
  induction h with
  | nil => rfl
  | @cons b p a l hp _ ih =>
    have hstep := hr b p hp
    rw [List.length_cons, ← hstep, ← ih]
    omega

/-- Every node of a descent is above the node reached. -/
theorem rank_lt_of_mem (h : Descent parent b l a) (hx : x ∈ l) : rank a < rank x := by
  obtain ⟨_, l₂, -, -, hx₂⟩ := h.split_of_mem hx
  have := hx₂.rank_add_length hr
  rw [List.length_cons] at this
  omega

/-- The node reached is not on the descent. -/
theorem not_mem (h : Descent parent b l a) : a ∉ l :=
  fun ha => lt_irrefl _ (h.rank_lt_of_mem hr ha)

/-- Every node of a descent is at most the node it starts from. -/
theorem rank_le_of_mem (h : Descent parent b l a) (hx : x ∈ l) : rank x ≤ rank b := by
  obtain ⟨l₁, _, -, hx₁, -⟩ := h.split_of_mem hx
  have := hx₁.rank_add_length hr
  omega

/-- The ranks strictly decrease along a descent. -/
theorem pairwise_rank_lt (h : Descent parent b l a) : l.Pairwise fun x y => rank y < rank x := by
  induction h with
  | nil => exact List.Pairwise.nil
  | @cons b p a l hp hrest ih =>
    refine List.Pairwise.cons (fun y hy => ?_) ih
    have hy : rank y ≤ rank p := hrest.rank_le_of_mem hr hy
    have hstep := hr b p hp
    omega

theorem nodup (h : Descent parent b l a) : l.Nodup :=
  (h.pairwise_rank_lt hr).imp fun hlt heq => by
    subst heq
    exact lt_irrefl _ hlt

/-- **The descent between two nodes is unique**: its length is the difference of the ranks, and
each node has one parent. -/
theorem unique (h : Descent parent b l a) (h' : Descent parent b l' a) : l = l' := by
  have hlen : l.length = l'.length := by
    have := h.rank_add_length hr
    have := h'.rank_add_length hr
    omega
  obtain ⟨m, rfl, hm⟩ := h.prefix_of_length_le h' hlen.ge
  have hm0 : m = [] := List.eq_nil_of_length_eq_zero (by simpa using hlen)
  rw [hm0, List.append_nil]

/-- **Two descents to one node that end at different children share no node**: from a shared
node, both go on by the one descent from it. -/
theorem disjoint_of_getLast_ne {b₁ b₂ : α} {l₁ l₂ : List α} (h₁ : Descent parent b₁ l₁ a)
    (h₂ : Descent parent b₂ l₂ a) (hl₁ : l₁ ≠ []) (hl₂ : l₂ ≠ [])
    (hne : l₁.getLast hl₁ ≠ l₂.getLast hl₂) : ∀ x ∈ l₁, x ∉ l₂ := by
  intro x hx₁ hx₂
  obtain ⟨p₁, r₁, rfl, -, hr₁⟩ := h₁.split_of_mem hx₁
  obtain ⟨p₂, r₂, rfl, -, hr₂⟩ := h₂.split_of_mem hx₂
  have hr : x :: r₁ = x :: r₂ := hr₁.unique hr hr₂
  apply hne
  calc (p₁ ++ x :: r₁).getLast hl₁ = (x :: r₁).getLast (List.cons_ne_nil x r₁) :=
        List.getLast_append_of_ne_nil _ _
    _ = (x :: r₂).getLast (List.cons_ne_nil x r₂) := by simp only [hr]
    _ = (p₂ ++ x :: r₂).getLast hl₂ := (List.getLast_append_of_ne_nil _ _).symm

end Descent

/-- **Every node of rank at least `n` descends to one of rank `n`**, when `P` holds of the
nodes above the floor `r₀ ≤ n` only with a parent of which `P` holds. -/
theorem exists_descent_rank {P : α → Prop} {r₀ : ℕ}
    (hpar : ∀ b, P b → r₀ < rank b → ∃ p, parent b = some p ∧ P p) {n : ℕ} (hn : r₀ ≤ n) :
    ∀ b, P b → n ≤ rank b → ∃ l a, Descent parent b l a ∧ rank a = n ∧ P a := by
  -- induction on the distance `rank b - n`
  suffices key : ∀ k b, P b → rank b = n + k → ∃ l a, Descent parent b l a ∧ rank a = n ∧ P a by
    intro b hb hle
    exact key (rank b - n) b hb (by omega)
  intro k
  induction k with
  | zero => exact fun b hb hk => ⟨[], b, .nil b, hk, hb⟩
  | succ k ih =>
    intro b hb hk
    obtain ⟨p, hp, hPp⟩ := hpar b hb (by omega)
    have hstep := hr b p hp
    obtain ⟨l, a, hl, ha, hPa⟩ := ih p hPp (by omega)
    exact ⟨b :: l, a, .cons hp hl, ha, hPa⟩

end Ranked

end ParentTree
