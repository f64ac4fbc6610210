import Mathlib

/-!
# Pairwise reduction of a list

Two ways of combining the elements of a list two at a time with a binary
operation `f`, the building blocks of level-by-level tree hashing:

* `pairUp f xs` combines `xs[0]` with `xs[1]`, `xs[2]` with `xs[3]`, and so on,
  and drops a last element that has no partner: the *complete* nodes one level
  up;
* `pairUpDup f xs` does the same but combines an unpaired last element with
  itself.

The reason to have both is `pairUpDup_append_singleton`: on a list `ys ++ [t]`
the duplicating reduction is the dropping reduction of `ys` followed by one new
last element, `carryUp f ys t`. A level in which only the last node may be
incomplete therefore reduces to a level of the same shape, one level up, and a
walk from a new last element to the top of the tree only ever looks at one node
per level.

`frontier f ys` collects, from the bottom level up, the last complete node of
every level of odd length: the left siblings that an element appended to `ys`
meets on its way to the top. `frontier_of_odd` and `frontier_of_even` are its
two unfolding equations.
-/

namespace PairUp

variable {α : Type*} (f : α → α → α)

/-- Combine adjacent elements, dropping an unpaired last element. -/
def pairUp : List α → List α
  | a :: b :: rest => f a b :: pairUp rest
  | _ => []

/-- Combine adjacent elements, combining an unpaired last element with itself. -/
def pairUpDup : List α → List α
  | a :: b :: rest => f a b :: pairUpDup rest
  | [a] => [f a a]
  | [] => []

/-- The node one level above the last element `t` of `ys ++ [t]`: `t` with its
left neighbour when `ys` has odd length, `t` with itself otherwise. -/
def carryUp : List α → α → α
  | _ :: _ :: rest, t => carryUp rest t
  | [a], t => f a t
  | [], t => f t t

@[simp] theorem pairUp_nil : pairUp f ([] : List α) = [] := rfl

@[simp] theorem pairUp_singleton (a : α) : pairUp f [a] = [] := rfl

@[simp] theorem pairUp_cons_cons (a b : α) (rest : List α) :
    pairUp f (a :: b :: rest) = f a b :: pairUp f rest := rfl

@[simp] theorem length_pairUp : ∀ xs : List α, (pairUp f xs).length = xs.length / 2
  | [] => by simp
  | [_] => by simp
  | _ :: _ :: rest => by
    simp only [pairUp_cons_cons, List.length_cons, length_pairUp rest]
    omega

@[simp] theorem length_pairUpDup : ∀ xs : List α, (pairUpDup f xs).length = (xs.length + 1) / 2
  | [] => by simp [pairUpDup]
  | [_] => by simp [pairUpDup]
  | _ :: _ :: rest => by
    simp only [pairUpDup, List.length_cons, length_pairUpDup rest]
    omega

/-- Every complete pair is a value of `f`. -/
theorem exists_of_mem_pairUp : ∀ {xs : List α} {x : α}, x ∈ pairUp f xs → ∃ a b, x = f a b
  | a :: b :: rest, x, h => by
    rw [pairUp_cons_cons, List.mem_cons] at h
    rcases h with rfl | h
    · exact ⟨a, b, rfl⟩
    · exact exists_of_mem_pairUp h

theorem length_pairUp_lt {xs : List α} (h : xs ≠ []) : (pairUp f xs).length < xs.length := by
  have hpos : 0 < xs.length := List.length_pos_iff.mpr h
  rw [length_pairUp]
  omega

/-- The duplicating reduction of `ys ++ [t]` is the complete reduction of `ys`
followed by the carried node. -/
theorem pairUpDup_append_singleton :
    ∀ (ys : List α) (t : α), pairUpDup f (ys ++ [t]) = pairUp f ys ++ [carryUp f ys t]
  | [], _ => rfl
  | [_], _ => rfl
  | a :: b :: rest, t => by
    change f a b :: pairUpDup f (rest ++ [t]) = f a b :: (pairUp f rest ++ [carryUp f rest t])
    rw [pairUpDup_append_singleton rest t]

/-- On a list of even length nothing is left unpaired. -/
theorem pairUpDup_of_even :
    ∀ xs : List α, xs.length % 2 = 0 → pairUpDup f xs = pairUp f xs
  | [], _ => rfl
  | [_], h => by simp at h
  | a :: b :: rest, h => by
    have hrest : rest.length % 2 = 0 := by simp only [List.length_cons] at h; omega
    change f a b :: pairUpDup f rest = f a b :: pairUp f rest
    rw [pairUpDup_of_even rest hrest]

/-- Padding an odd list with a copy of its last element and pairing is the
duplicating reduction. -/
theorem pairUp_pad_of_odd :
    ∀ xs : List α, xs.length % 2 = 1 → pairUp f (xs ++ xs.getLast?.toList) = pairUpDup f xs
  | [], h => by simp at h
  | [_], _ => rfl
  | [_, _], h => by simp at h
  | [a, b, c], _ => rfl
  | a :: b :: c :: d :: rest, h => by
    have hrest : (c :: d :: rest).length % 2 = 1 := by simp only [List.length_cons] at h ⊢; omega
    have ih := pairUp_pad_of_odd (c :: d :: rest) hrest
    have hlast : (a :: b :: c :: d :: rest).getLast? = (c :: d :: rest).getLast? := by
      simp [List.getLast?_cons]
    rw [hlast]
    change f a b :: pairUp f ((c :: d :: rest) ++ (c :: d :: rest).getLast?.toList)
      = f a b :: pairUpDup f (c :: d :: rest)
    rw [ih]

theorem carryUp_of_even :
    ∀ (ys : List α) (t : α), ys.length % 2 = 0 → carryUp f ys t = f t t
  | [], _, _ => rfl
  | [_], _, h => by simp at h
  | _ :: _ :: rest, t, h => by
    have hrest : rest.length % 2 = 0 := by simp only [List.length_cons] at h; omega
    exact carryUp_of_even rest t hrest

theorem carryUp_of_odd :
    ∀ (ys : List α) (l t : α), ys.length % 2 = 1 → ys.getLast? = some l → carryUp f ys t = f l t
  | [], _, _, h, _ => by simp at h
  | [_], l, t, _, hl => by simp at hl; subst hl; rfl
  | [_, _], _, _, h, _ => by simp at h
  | _ :: _ :: c :: rest, l, t, h, hl => by
    have hodd : (c :: rest).length % 2 = 1 := by simp only [List.length_cons] at h ⊢; omega
    have hl' : (c :: rest).getLast? = some l := by simpa [List.getLast?_cons] using hl
    exact carryUp_of_odd (c :: rest) l t hodd hl'

/-- Appending to a list of even length leaves the complete pairs unchanged. -/
theorem pairUp_append_singleton_of_even :
    ∀ (ys : List α) (t : α), ys.length % 2 = 0 → pairUp f (ys ++ [t]) = pairUp f ys
  | [], _, _ => rfl
  | [_], _, h => by simp at h
  | a :: b :: rest, t, h => by
    have hrest : rest.length % 2 = 0 := by simp only [List.length_cons] at h; omega
    change f a b :: pairUp f (rest ++ [t]) = f a b :: pairUp f rest
    rw [pairUp_append_singleton_of_even rest t hrest]

/-- Appending to a list of odd length completes its last pair. -/
theorem pairUp_append_singleton_of_odd (ys : List α) (t : α) (h : ys.length % 2 = 1) :
    pairUp f (ys ++ [t]) = pairUp f ys ++ [carryUp f ys t] := by
  rw [← pairUpDup_append_singleton, pairUpDup_of_even]
  simp only [List.length_append, List.length_singleton]
  omega

/-! ### The frontier -/

/-- The last complete node of every odd-length level, lowest level first. -/
def frontier : List α → List α
  | [] => []
  | a :: as =>
    (if (a :: as).length % 2 = 1 then (a :: as).getLast?.toList else [])
      ++ frontier (pairUp f (a :: as))
termination_by ys => ys.length
decreasing_by exact length_pairUp_lt f (List.cons_ne_nil a as)

@[simp] theorem frontier_nil : frontier f ([] : List α) = [] := by
  rw [frontier.eq_1]

theorem frontier_of_odd {ys : List α} {l : α} (h : ys.length % 2 = 1)
    (hl : ys.getLast? = some l) : frontier f ys = l :: frontier f (pairUp f ys) := by
  obtain ⟨a, as, rfl⟩ := List.exists_cons_of_ne_nil (l := ys) (by rintro rfl; simp at h)
  rw [frontier.eq_2, if_pos h, hl]
  rfl

theorem frontier_of_even {ys : List α} (hne : ys ≠ []) (h : ys.length % 2 = 0) :
    frontier f ys = frontier f (pairUp f ys) := by
  obtain ⟨a, as, rfl⟩ := List.exists_cons_of_ne_nil hne
  rw [frontier.eq_2, if_neg (by omega), List.nil_append]

@[simp] theorem frontier_singleton (a : α) : frontier f [a] = [a] := by
  rw [frontier_of_odd f (l := a) rfl rfl]
  simp

end PairUp
