import Mathlib

/-!
# Undo logs

A store `κ → ν` changed by writes, each of which sets a key. To roll a batch of writes back, an
undo log keeps for each written key the value it had before, and rolling back writes those old
values again. `assign store entries` writes the entries in order. When the keys of a batch are
distinct, the order of its entries does not matter (`assign_perm`), and writing the old values
of the batch after the batch gives the store before it back (`assign_restore`).
-/

namespace UndoLog

variable {α κ ν : Type*} [DecidableEq κ]

/-- Write the entries in order. -/
def assign (store : κ → ν) (entries : List (κ × ν)) : κ → ν :=
  entries.foldl (fun store e => Function.update store e.1 e.2) store

variable {store : κ → ν}

@[simp] theorem assign_nil : assign store [] = store := rfl

theorem assign_cons (e : κ × ν) (entries : List (κ × ν)) :
    assign store (e :: entries) = assign (Function.update store e.1 e.2) entries := rfl

theorem assign_append (l₁ l₂ : List (κ × ν)) :
    assign store (l₁ ++ l₂) = assign (assign store l₁) l₂ :=
  List.foldl_append

/-- A fold that sets keys is an `assign`. -/
theorem foldl_update_eq_assign (l : List α) (key : α → κ) (value : α → ν) :
    l.foldl (fun store a => Function.update store (key a) (value a)) store =
      assign store (l.map fun a => (key a, value a)) := by
  rw [assign, List.foldl_map]

/-- A key that no entry writes keeps its value. -/
theorem assign_apply_of_not_mem {entries : List (κ × ν)} {k : κ}
    (hk : k ∉ entries.map Prod.fst) : assign store entries k = store k := by
  induction entries generalizing store with
  | nil => rfl
  | cons e entries ih =>
    rw [List.map_cons, List.mem_cons, not_or] at hk
    rw [assign_cons, ih hk.2, Function.update_of_ne hk.1]

/-- With distinct keys, a key that an entry writes ends with the entry's value. -/
theorem assign_apply_of_mem {entries : List (κ × ν)} (hnodup : (entries.map Prod.fst).Nodup)
    {e : κ × ν} (he : e ∈ entries) : assign store entries e.1 = e.2 := by
  induction entries generalizing store with
  | nil => cases he
  | cons e' entries ih =>
    rw [List.map_cons, List.nodup_cons] at hnodup
    rw [assign_cons]
    rcases List.mem_cons.mp he with rfl | he
    · -- no later entry writes the key again
      rw [assign_apply_of_not_mem hnodup.1, Function.update_self]
    · exact ih hnodup.2 he

/-- **With distinct keys, the order of the entries does not matter.** -/
theorem assign_perm {l₁ l₂ : List (κ × ν)} (hperm : l₁.Perm l₂) (hnodup : (l₁.map Prod.fst).Nodup) :
    assign store l₁ = assign store l₂ := by
  funext k
  have hnodup₂ : (l₂.map Prod.fst).Nodup := ((hperm.map Prod.fst).nodup_iff).mp hnodup
  by_cases hk : k ∈ l₁.map Prod.fst
  · obtain ⟨e, he, rfl⟩ := List.mem_map.mp hk
    rw [assign_apply_of_mem hnodup he, assign_apply_of_mem hnodup₂ (hperm.subset he)]
  · have hk₂ : k ∉ l₂.map Prod.fst := fun h => hk ((hperm.map Prod.fst).symm.subset h)
    rw [assign_apply_of_not_mem hk, assign_apply_of_not_mem hk₂]

/-- **Writing the old values undoes a batch**: for a batch of writes to distinct keys, writing
afterwards the value each key had before gives the store before the batch back. -/
theorem assign_restore {l : List α} (key : α → κ) (old new : α → ν) (hnodup : (l.map key).Nodup)
    (hold : ∀ a ∈ l, old a = store (key a)) :
    assign (assign store (l.map fun a => (key a, new a))) (l.map fun a => (key a, old a)) = store := by
  funext k
  have hkeys : (l.map fun a => (key a, old a)).map Prod.fst = l.map key := by
    rw [List.map_map]
    rfl
  by_cases hk : k ∈ l.map key
  · obtain ⟨a, ha, rfl⟩ := List.mem_map.mp hk
    have hmem : (key a, old a) ∈ l.map fun a => (key a, old a) := List.mem_map_of_mem ha
    have happly : assign (assign store (l.map fun a => (key a, new a)))
        (l.map fun a => (key a, old a)) (key a) = old a :=
      assign_apply_of_mem (hkeys ▸ hnodup) hmem
    rw [happly, hold a ha]
  · have hnew : k ∉ (l.map fun a => (key a, new a)).map Prod.fst := by
      rw [List.map_map]
      exact hk
    rw [assign_apply_of_not_mem (hkeys ▸ hk), assign_apply_of_not_mem hnew]

end UndoLog
