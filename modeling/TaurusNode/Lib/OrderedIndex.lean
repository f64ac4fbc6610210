import Mathlib

/-!
# Ordered indices

An ordered index of a multi-index container hands out its elements in the order of a key,
`begin()` being the least. Over the list of the elements in the order they were created,
`begin()` is `List.argmin key`, which breaks ties towards the element created first.

`removeWhile` is the loop `while (!idx.empty() && p(*idx.begin())) idx.remove(*idx.begin())`,
with one removal per unit of fuel. When `p` holds of an element as soon as it holds of one with
a larger key, the loop removes exactly the elements where `p` holds, given as much fuel as there
are elements (`removeWhile_eq_filter`).

A scan from one end of an index that stops at the first element outside a range takes the whole
range, when the range is closed towards that end (`takeWhile_eq_filter`); what it leaves is the
rest of the index (`dropWhile_eq_filter`), so the index splits at the range
(`filter_append_filter_not`).
-/

namespace OrderedIndex

section Loop

variable {α β : Type*} [DecidableEq α] [LinearOrder β] (key : α → β) (p : α → Bool)

/-- Remove the least element while `p` holds of it. -/
def removeWhile : ℕ → List α → List α
  | 0, l => l
  | fuel + 1, l =>
    match l.argmin key with
    | some a => if p a then removeWhile fuel (l.erase a) else l
    | none => l

/-- **The loop is a filter**: when `p` is closed downward in the order of the key, it removes
exactly the elements where `p` holds. -/
theorem removeWhile_eq_filter (hp : ∀ a b, key a ≤ key b → p b = true → p a = true) :
    ∀ {fuel : ℕ} {l : List α}, l.length ≤ fuel → removeWhile key p fuel l = l.filter fun a => !p a
  | 0, l, hl => by
    rw [List.length_eq_zero_iff.mp (Nat.le_zero.mp hl)]
    rfl
  | fuel + 1, l, hl => by
    rw [removeWhile]
    split
    · rename_i a ha
      have hmem := List.argmin_mem ha
      by_cases hpa : p a = true
      · -- the least element goes, and the loop goes on with one element fewer
        rw [if_pos hpa, removeWhile_eq_filter hp (by rw [List.length_erase_of_mem hmem]; omega),
          ← List.erase_filter, List.erase_of_not_mem]
        simp [hpa]
      · -- the least element stays, and so does every element above it
        rw [if_neg hpa, eq_comm, List.filter_eq_self]
        intro b hb
        simpa using fun hpb => hpa (hp a b (List.le_of_mem_argmin hb ha) hpb)
    · rename_i hnone
      rw [List.argmin_eq_none.mp hnone]
      rfl

end Loop

/-! ### Scans -/

section Scan

variable {α : Type*} {l : List α} {q : α → Bool}

/-- A scan that stops at the first element where `q` fails takes every element where `q` holds,
when `q` holding of an element makes it hold of every element before it. -/
theorem takeWhile_eq_filter (h : l.Pairwise fun a b => q b → q a) : l.takeWhile q = l.filter q := by
  induction l with
  | nil => rfl
  | cons a l ih =>
    rw [List.pairwise_cons] at h
    by_cases hqa : q a = true
    · rw [List.takeWhile_cons_of_pos hqa, List.filter_cons_of_pos hqa, ih h.2]
    · -- nothing after `a` is in the range either
      rw [List.takeWhile_cons_of_neg hqa, List.filter_cons_of_neg hqa, eq_comm,
        List.filter_eq_nil_iff]
      exact fun b hb hqb => hqa (h.1 b hb hqb)

/-- What the scan leaves is the rest. -/
theorem dropWhile_eq_filter (h : l.Pairwise fun a b => q b → q a) :
    l.dropWhile q = l.filter fun a => !q a := by
  induction l with
  | nil => rfl
  | cons a l ih =>
    rw [List.pairwise_cons] at h
    by_cases hqa : q a = true
    · rw [List.dropWhile_cons_of_pos hqa, List.filter_cons_of_neg (by simpa using hqa), ih h.2]
    · -- everything from `a` on is outside the range
      rw [List.dropWhile_cons_of_neg hqa, eq_comm, List.filter_eq_self]
      intro b hb
      rcases List.mem_cons.mp hb with rfl | hb
      · simpa using hqa
      · simpa using fun hqb => hqa (h.1 b hb hqb)

/-- The index splits at a range closed towards its front. -/
theorem filter_append_filter_not (h : l.Pairwise fun a b => q b → q a) :
    l.filter q ++ l.filter (fun a => !q a) = l := by
  rw [← takeWhile_eq_filter h, ← dropWhile_eq_filter h, List.takeWhile_append_dropWhile]

end Scan

end OrderedIndex
