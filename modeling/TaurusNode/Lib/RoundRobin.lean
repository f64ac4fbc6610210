import Mathlib

/-!
# Round-robin schedules

`n` owners hold the slots in turn, `r` consecutive slots each: slot `s` is owner
`s % (n * r) / r`'s, which is `s / r % n` (`owner_eq`), the owner of the block of `r` slots that
`s` is in. So the owners of the blocks `b, b + 1, …` go round modulo `n`.

The first slot from `m` on that owner `i` holds is `m` when `i` owns it, and otherwise the first
slot of the block `distance` blocks after `m`'s, `distance` being how far `i` is ahead of the
owner of `m`'s block, modulo `n` (`nextSlot`). It is the least such slot
(`isLeast_nextSlot`), from the same fact about blocks (`distance_le`).
-/

namespace RoundRobin

variable (n r : ℕ)

/-- The owner of slot `s`. -/
def owner (s : ℕ) : ℕ := s % (n * r) / r

/-- The slots from `m` on that owner `i` holds. -/
def slotsFrom (i m : ℕ) : Set ℕ := {s | m ≤ s ∧ owner n r s = i}

/-- How many blocks owner `i` is ahead of the owner of block `b`. -/
def distance (b i : ℕ) : ℕ := (i + n - b % n) % n

/-- The first slot from `m` on that owner `i` holds, in closed form. -/
def nextSlot (i m : ℕ) : ℕ :=
  if owner n r m = i then m else (m / r + distance n (m / r) i) * r

variable {n r}

theorem owner_eq (s : ℕ) : owner n r s = s / r % n := Nat.mod_mul_left_div_self s r n

theorem owner_lt (hn : 0 < n) (s : ℕ) : owner n r s < n := by
  rw [owner_eq]
  exact Nat.mod_lt _ hn

/-! ### Blocks -/

theorem distance_lt (hn : 0 < n) (b i : ℕ) : distance n b i < n := Nat.mod_lt _ hn

/-- The block `distance` blocks on is `i`'s. -/
theorem add_distance_mod {i : ℕ} (hi : i < n) (b : ℕ) : (b + distance n b i) % n = i := by
  have hb : b % n < n := Nat.mod_lt _ (by omega)
  calc (b + distance n b i) % n = (b % n + (i + n - b % n)) % n :=
        Nat.ModEq.add (Nat.mod_modEq b n).symm (Nat.mod_modEq _ n)
    _ = (i + n) % n := by congr 1; omega
    _ = i := by rw [Nat.add_mod_right, Nat.mod_eq_of_lt hi]

/-- Any block from `b` on that `i` owns is at least `distance` blocks on. -/
theorem distance_le {i b c : ℕ} (hi : i < n) (hbc : b ≤ c) (hc : c % n = i) :
    b + distance n b i ≤ c := by
  -- `c - b` and `distance` both take the owner of `b` to `i`, so they agree modulo `n`
  have hmod : (c - b) % n = distance n b i := by
    have hsame : (b + (c - b)) % n = (b + distance n b i) % n := by
      rw [Nat.add_sub_cancel' hbc, hc, add_distance_mod hi]
    have hcancel := Nat.ModEq.add_left_cancel' b hsame
    rwa [Nat.ModEq, Nat.mod_eq_of_lt (distance_lt (by omega) b i)] at hcancel
  have := Nat.mod_le (c - b) n
  omega

/-! ### Slots -/

/-- The closed form is the first slot from `m` on that owner `i` holds. -/
theorem isLeast_nextSlot {i : ℕ} (hr : 0 < r) (hi : i < n) (m : ℕ) :
    IsLeast (slotsFrom n r i m) (nextSlot n r i m) := by
  unfold nextSlot
  split
  · next hm => exact ⟨⟨le_rfl, hm⟩, fun s hs => hs.1⟩
  · next hm =>
    rw [owner_eq] at hm
    -- `m`'s block is not `i`'s, so `i`'s next block is a later one
    have hlater : m / r < m / r + distance n (m / r) i := by
      have hdist := add_distance_mod hi (m / r)
      rcases Nat.eq_zero_or_pos (distance n (m / r) i) with h0 | hpos
      · rw [h0, Nat.add_zero] at hdist
        exact absurd hdist hm
      · omega
    refine ⟨⟨?_, ?_⟩, fun s hs => ?_⟩
    · calc m ≤ (m / r + 1) * r := by
            rw [Nat.add_mul, one_mul]
            exact (Nat.lt_div_mul_add hr).le
        _ ≤ _ := Nat.mul_le_mul_right r hlater
    · rw [owner_eq, Nat.mul_div_cancel _ hr]
      exact add_distance_mod hi _
    · obtain ⟨hms, hs⟩ := hs
      rw [owner_eq] at hs
      have hblock := distance_le hi (Nat.div_le_div_right hms) hs
      calc (m / r + distance n (m / r) i) * r ≤ s / r * r := Nat.mul_le_mul_right r hblock
        _ ≤ s := Nat.div_mul_le_self s r

end RoundRobin
