import Mathlib

/-!
# Numerals written most significant digit first

A list of digits `[d₀, d₁, …, dₖ]` below a base `B`, most significant first, is worth
`Nat.ofDigits B [dₖ, …, d₁, d₀]` (Mathlib reads digits least significant first, hence the
`reverse`). Serialising numbers this way makes the lexicographic order of the lists the order of
the numbers:

* `lt_iff_ofDigits_reverse_lt`: two numerals of the same length compare lexicographically as their
  values compare;
* `ofDigits_flatMap`: a numeral made of blocks of `w` digits in base `B` is a numeral in base
  `B ^ w` whose digits are the blocks' values, which is how a sequence of machine words laid out
  byte by byte is read as one number.
-/

namespace LexDigits

theorem ofDigits_reverse_cons (B a : ℕ) (as : List ℕ) :
    Nat.ofDigits B (a :: as).reverse = a * B ^ as.length + Nat.ofDigits B as.reverse := by
  rw [List.reverse_cons, Nat.ofDigits_append, Nat.ofDigits_singleton, List.length_reverse,
    Nat.mul_comm, Nat.add_comm]

/-- A numeral of `n` digits below `B` is below `B ^ n`. -/
theorem ofDigits_reverse_lt {B : ℕ} {as : List ℕ} (ha : ∀ a ∈ as, a < B) :
    Nat.ofDigits B as.reverse < B ^ as.length := by
  induction as with
  | nil => simp
  | cons a as ih =>
    have hrest := ih (fun x hx => ha x (List.mem_cons_of_mem _ hx))
    have hlead : a + 1 ≤ B := ha a List.mem_cons_self
    rw [ofDigits_reverse_cons, List.length_cons, Nat.pow_succ]
    calc a * B ^ as.length + Nat.ofDigits B as.reverse
        < (a + 1) * B ^ as.length := by rw [Nat.add_mul, Nat.one_mul]; omega
      _ ≤ B * B ^ as.length := Nat.mul_le_mul_right _ hlead
      _ = B ^ as.length * B := Nat.mul_comm _ _

/-- **Numerals compare as their values.** Lexicographic order on digit lists of one length is
the order of the numbers they write. -/
theorem lt_iff_ofDigits_reverse_lt {B : ℕ} {as bs : List ℕ} (hlen : as.length = bs.length)
    (ha : ∀ a ∈ as, a < B) (hb : ∀ b ∈ bs, b < B) :
    as < bs ↔ Nat.ofDigits B as.reverse < Nat.ofDigits B bs.reverse := by
  induction as generalizing bs with
  | nil =>
    cases bs with
    | nil => simp
    | cons b bs => simp at hlen
  | cons a as ih =>
    cases bs with
    | nil => simp at hlen
    | cons b bs =>
      have hlen' : as.length = bs.length := by simpa using hlen
      have has := ofDigits_reverse_lt (fun x hx => ha x (List.mem_cons_of_mem _ hx))
      have hbs := ofDigits_reverse_lt (fun x hx => hb x (List.mem_cons_of_mem _ hx))
      rw [List.cons_lt_cons_iff, ih hlen' (fun x hx => ha x (List.mem_cons_of_mem _ hx))
        (fun x hx => hb x (List.mem_cons_of_mem _ hx)), ofDigits_reverse_cons,
        ofDigits_reverse_cons, ← hlen']
      rw [← hlen'] at hbs
      constructor
      · rintro (hab | ⟨rfl, hlt⟩)
        · calc a * B ^ as.length + Nat.ofDigits B as.reverse
              < (a + 1) * B ^ as.length := by rw [Nat.add_mul, Nat.one_mul]; omega
            _ ≤ b * B ^ as.length := Nat.mul_le_mul_right _ hab
            _ ≤ _ := Nat.le_add_right _ _
        · omega
      · intro h
        rcases lt_trichotomy a b with hab | rfl | hab
        · exact .inl hab
        · exact .inr ⟨rfl, by omega⟩
        · exfalso
          have : b * B ^ as.length + Nat.ofDigits B bs.reverse < a * B ^ as.length := by
            calc b * B ^ as.length + Nat.ofDigits B bs.reverse
                < (b + 1) * B ^ as.length := by rw [Nat.add_mul, Nat.one_mul]; omega
              _ ≤ a * B ^ as.length := Nat.mul_le_mul_right _ hab
          omega

/-- Blocks of `w` digits in base `B` are digits in base `B ^ w`. -/
theorem ofDigits_flatMap {α : Type*} {B w : ℕ} (g : α → List ℕ) (hg : ∀ a, (g a).length = w)
    (l : List α) :
    Nat.ofDigits B (l.flatMap g) = Nat.ofDigits (B ^ w) (l.map fun a => Nat.ofDigits B (g a)) := by
  induction l with
  | nil => rfl
  | cons a l ih =>
    rw [List.flatMap_cons, Nat.ofDigits_append, hg, ih, List.map_cons, Nat.ofDigits_cons]

end LexDigits
