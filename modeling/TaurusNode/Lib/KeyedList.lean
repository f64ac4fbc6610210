import Mathlib

/-!
# Lists with a unique key

A list of records whose key is unique (`(l.map key).Nodup`) models a table with a
unique index. Looking a record up by its key finds the one record with that key
(`find?_key_eq_some_iff`); removing the record with a key removes that record
alone, and updating it updates that record alone. Appending a record with a new
key, removing records and updating records without changing their keys keep the
key unique. The sum of a quantity over the table then changes by what the one
record contributes (`sum_map_filter_key_ne`, `sum_map_update_key`), and a count
by whether the one record is counted (`countP_filter_key_ne`), which is how a
running total or a counter kept beside the table is checked against it.
-/

namespace KeyedList

variable {α κ M : Type*} [DecidableEq κ] (key : α → κ)

theorem find?_key_eq_some_iff {l : List α} (hl : (l.map key).Nodup) {k : κ} {a : α} :
    l.find? (fun x => key x = k) = some a ↔ a ∈ l ∧ key a = k := by
  constructor
  · intro h
    exact ⟨List.mem_of_find?_eq_some h, by simpa using List.find?_some h⟩
  · rintro ⟨ha, rfl⟩
    induction l with
    | nil => cases ha
    | cons x xs ih =>
      rw [List.map_cons, List.nodup_cons] at hl
      by_cases hx : key x = key a
      · -- the first record with the key is `a` itself
        rw [List.find?_cons_of_pos (by simpa using hx)]
        rcases List.mem_cons.mp ha with rfl | ha
        · rfl
        · exact absurd (hx ▸ List.mem_map_of_mem ha) hl.1
      · rw [List.find?_cons_of_neg (by simpa using hx)]
        rcases List.mem_cons.mp ha with rfl | ha
        · exact absurd rfl hx
        · exact ih hl.2 ha

omit [DecidableEq κ] in
/-- Appending a record with a new key keeps the key unique. -/
theorem nodup_map_append_singleton {l : List α} (hl : (l.map key).Nodup) {a : α}
    (ha : key a ∉ l.map key) : ((l ++ [a]).map key).Nodup := by
  rw [List.map_append, List.map_singleton]
  exact hl.append (List.nodup_singleton _) (List.disjoint_singleton.mpr ha)

omit [DecidableEq κ] in
/-- Removing records keeps the key unique. -/
theorem nodup_map_filter {l : List α} (hl : (l.map key).Nodup) (p : α → Bool) :
    ((l.filter p).map key).Nodup :=
  (List.filter_sublist.map key).nodup hl

/-- An update that keeps the key of every record leaves the keys as they are. -/
theorem map_key_update {l : List α} {k : κ} (g : α → α) (hg : ∀ x, key (g x) = key x) :
    (l.map fun x => if key x = k then g x else x).map key = l.map key := by
  rw [List.map_map]
  refine List.map_congr_left fun x _ => ?_
  by_cases hx : key x = k <;> simp [hx, hg]

/-- The records with the key of `a` are `a` alone. -/
theorem filter_key_eq {l : List α} (hl : (l.map key).Nodup) {a : α} (ha : a ∈ l) :
    l.filter (fun x => key x = key a) = [a] := by
  induction l with
  | nil => cases ha
  | cons x xs ih =>
    rw [List.map_cons, List.nodup_cons] at hl
    rcases List.mem_cons.mp ha with rfl | ha
    · -- no later record has the key of the first
      rw [List.filter_cons_of_pos (by simp), List.filter_eq_nil_iff.mpr]
      intro y hy hky
      have hy' : key y ∈ xs.map key := List.mem_map_of_mem hy
      rw [of_decide_eq_true hky] at hy'
      exact hl.1 hy'
    · have hx : key x ≠ key a := fun hxa => hl.1 (hxa ▸ List.mem_map_of_mem ha)
      rw [List.filter_cons_of_neg (by simpa using hx)]
      exact ih hl.2 ha

variable [AddCommMonoid M] (f : α → M)

/-- Removing the record with the key of `a` takes away what `a` contributes to a sum. -/
theorem sum_map_filter_key_ne {l : List α} (hl : (l.map key).Nodup) {a : α} (ha : a ∈ l) :
    ((l.filter fun x => key x ≠ key a).map f).sum + f a = (l.map f).sum := by
  rw [← List.sum_map_filter_add_sum_map_filter_not (fun x => key x = key a) f l,
    filter_key_eq key hl ha, add_comm]
  simp

/-- Updating the record with the key of `a` replaces what `a` contributes to a sum. -/
theorem sum_map_update_key {l : List α} (hl : (l.map key).Nodup) {a : α} (ha : a ∈ l)
    (g : α → α) :
    ((l.map fun x => if key x = key a then g x else x).map f).sum + f a =
      (l.map f).sum + f (g a) := by
  rw [List.map_map, ← List.sum_map_filter_add_sum_map_filter_not (fun x => key x = key a) _ l,
    ← List.sum_map_filter_add_sum_map_filter_not (fun x => key x = key a) f l,
    filter_key_eq key hl ha]
  -- off the key the update changes nothing
  have hoff : ((l.filter fun x => ¬key x = key a).map
      (f ∘ fun x => if key x = key a then g x else x)) =
      (l.filter fun x => ¬key x = key a).map f := by
    refine List.map_congr_left fun x hx => ?_
    rw [Function.comp_apply, if_neg (by simpa using (List.mem_filter.mp hx).2)]
  rw [hoff]
  simp only [List.map_cons, List.map_nil, List.sum_cons, List.sum_nil, add_zero,
    Function.comp_apply, if_true]
  abel

/-- Removing the record with the key of `a` takes `a` out of a count. -/
theorem countP_filter_key_ne {l : List α} (hl : (l.map key).Nodup) {a : α} (ha : a ∈ l)
    (P : α → Bool) :
    (l.filter fun x => key x ≠ key a).countP P + (if P a then 1 else 0) = l.countP P := by
  rw [List.countP_eq_countP_filter_add l P (fun x => key x = key a), filter_key_eq key hl ha]
  simp only [decide_not, List.countP_cons, List.countP_nil, zero_add]
  omega

/-- An update that keeps what a count tests leaves the count as it is. -/
theorem countP_map_update {l : List α} {k : κ} (g : α → α) {P : α → Bool}
    (hg : ∀ x, P (g x) = P x) :
    (l.map fun x => if key x = k then g x else x).countP P = l.countP P := by
  rw [List.countP_map]
  refine List.countP_congr fun x _ => ?_
  by_cases hx : key x = k <;> simp [hx, hg]

end KeyedList
