import Mathlib
import TaurusNode.ChainKv.UndoStack
import TaurusNode.Lib.Bytes

/-!
# Keys of chain_kv and their order

`compare_blob` (libraries/chain_kv/include/b1/chain_kv/chain_kv.hpp) compares two byte strings
with `memcmp` over their common length and, when that part is equal, puts the shorter first. That
is the lexicographic order on `List UInt8` with bytes compared as unsigned values, which Mathlib
provides for lists once the bytes are linearly ordered: the instance below orders `UInt8` by the
order core gives it.

A view's keys are `create_full_key(prefix, contract, key)`: the view's prefix, the contract as
8 big-endian bytes (`append_key`) and the user's key. The keys with a given prefix `p` are the keys
from `p` up to, and not including, `get_next_prefix(p)`, which increments the last byte of `p`
that is not `0xff` and drops the bytes after it (`isPrefix_iff_le_lt_getNextPrefix`). This holds as
soon as one byte of `p` is not `0xff`; a view's prefix starts with a byte in `0x01 - 0xfe`, and the
keys `0x00` and `0xff` of the database's sentinels lie outside every such range
(`sentinel_lt_of_head`, `getNextPrefix_le_sentinel`).
-/

namespace B1.ChainKv

/-- Bytes compare as unsigned values, as `memcmp` compares them. -/
instance instLinearOrderUInt8 : LinearOrder UInt8 where
  le_refl := UInt8.le_refl
  le_trans _ _ _ := UInt8.le_trans
  le_antisymm _ _ := UInt8.le_antisymm
  le_total := UInt8.le_total
  lt_iff_le_not_ge _ _ := by
    rw [UInt8.lt_iff_toNat_lt, UInt8.le_iff_toNat_le, UInt8.le_iff_toNat_le]
    omega
  toDecidableLE := inferInstance

/-! ### Bytes and byte strings -/

theorem not_ff_lt (c : UInt8) : ¬ (0xff : UInt8) < c := by
  rw [UInt8.lt_iff_toNat_lt]
  have := c.toNat_lt
  show ¬ 255 < c.toNat
  omega

/-- Below a byte that is not `0xff`, its successor has nothing strictly between. -/
theorem lt_add_one_iff_le {b c : UInt8} (hb : b ≠ 0xff) : c < b + 1 ↔ c ≤ b := by
  have hb' : b.toNat ≠ 255 := fun h => hb (UInt8.toNat_inj.mp h)
  have := b.toNat_lt
  rw [UInt8.lt_iff_toNat_lt, UInt8.le_iff_toNat_le, UInt8.toNat_add, UInt8.toNat_one]
  omega

/-- Mathlib's order on lists replaces core's `≤`, so core's lemma about `≤` on two conses does not
apply to it; this is the same statement for Mathlib's order on bytes. -/
theorem cons_le_cons_iff {a b : UInt8} {l l' : Bytes} :
    a :: l ≤ b :: l' ↔ a < b ∨ a = b ∧ l ≤ l' := by
  rw [← not_lt, List.cons_lt_cons_iff, ← not_lt]
  rcases lt_trichotomy a b with h | rfl | h
  · simp [h, h.not_gt, h.ne']
  · simp
  · simp [h, h.not_gt, h.ne']

theorem not_cons_le_nil {a : UInt8} {l : Bytes} : ¬ a :: l ≤ [] :=
  not_le.mpr (List.nil_lt_cons a l)

theorem lt_ff_of_ne {v : UInt8} (hv : v ≠ 0xff) : v < 0xff := by
  refine lt_of_le_of_ne (UInt8.le_iff_toNat_le.mpr ?_) hv
  have := v.toNat_lt
  show v.toNat ≤ 255
  omega

/-- A common first part leaves the order of two keys as it was. -/
theorem append_le_append_left (a : Bytes) {b c : Bytes} (h : b ≤ c) : a ++ b ≤ a ++ c := by
  induction a with
  | nil => exact h
  | cons x a ih =>
    rw [List.cons_append, List.cons_append, cons_le_cons_iff]
    exact .inr ⟨rfl, ih⟩

/-- A common first part leaves the strict order of two keys as it was. -/
theorem append_lt_append_left (a : Bytes) {b c : Bytes} (h : b < c) : a ++ b < a ++ c := by
  induction a with
  | nil => exact h
  | cons x a ih =>
    rw [List.cons_append, List.cons_append, List.cons_lt_cons_iff]
    exact .inr ⟨rfl, ih⟩

/-- The keys that start with `p` have no gap: a key between two of them starts with `p` too. -/
theorem isPrefix_of_le_of_le {p a b c : Bytes} (ha : p <+: a) (hc : p <+: c) (hab : a ≤ b)
    (hbc : b ≤ c) : p <+: b := by
  induction p generalizing a b c with
  | nil => exact List.nil_prefix
  | cons x p ih =>
    obtain ⟨a', rfl⟩ : ∃ a', a = x :: a' := by
      obtain ⟨t, rfl⟩ := ha
      exact ⟨p ++ t, rfl⟩
    obtain ⟨c', rfl⟩ : ∃ c', c = x :: c' := by
      obtain ⟨t, rfl⟩ := hc
      exact ⟨p ++ t, rfl⟩
    cases b with
    | nil => exact absurd hab not_cons_le_nil
    | cons y b =>
      -- the first byte of `b` is squeezed to `x`, and the rest between the rests
      rw [cons_le_cons_iff] at hab hbc
      rw [List.cons_prefix_cons] at ha hc ⊢
      rcases hab with hxy | ⟨rfl, hab⟩
      · rcases hbc with hyx | ⟨rfl, -⟩
        · exact absurd (hxy.trans hyx) (lt_irrefl _)
        · exact absurd hxy (lt_irrefl _)
      · rcases hbc with hyx | ⟨-, hbc⟩
        · exact absurd hyx (lt_irrefl _)
        · exact ⟨rfl, ih ha.2 hc.2 hab hbc⟩

/-- A run of `0xff` bytes is at or below a key only as a prefix of it: no byte is above `0xff`. -/
theorem replicate_ff_le_iff {m : ℕ} {k : Bytes} :
    List.replicate m 0xff ≤ k ↔ List.replicate m 0xff <+: k := by
  induction m generalizing k with
  | zero => exact iff_of_true (not_lt.mp (List.not_lt_nil k)) (List.nil_prefix)
  | succ m ih =>
    cases k with
    | nil => exact iff_of_false not_cons_le_nil (by simp [List.replicate_succ])
    | cons c k =>
      rw [List.replicate_succ, cons_le_cons_iff, List.cons_prefix_cons, ih]
      simp [not_ff_lt c]

/-! ### `get_next_prefix` -/

/-- The loop of `get_next_prefix` on the key read from its last byte: a byte that the increment
wraps to `0` is popped, and the first one it does not wrap ends the loop. -/
def nextPrefixRev : Bytes → Bytes
  | [] => []
  | b :: bs => if b + 1 ≠ 0 then (b + 1) :: bs else nextPrefixRev bs

/-- `get_next_prefix(prefix)`. -/
def getNextPrefix (p : Bytes) : Bytes :=
  (nextPrefixRev p.reverse).reverse

theorem nextPrefixRev_replicate_append {b : UInt8} (hb : b ≠ 0xff) (m : ℕ) (r : Bytes) :
    nextPrefixRev (List.replicate m 0xff ++ b :: r) = (b + 1) :: r := by
  have hb1 : b + 1 ≠ 0 := by
    intro h
    have hb' : b.toNat ≠ 255 := fun h' => hb (UInt8.toNat_inj.mp h')
    have := b.toNat_lt
    have h2 := congrArg UInt8.toNat h
    rw [UInt8.toNat_add, UInt8.toNat_one, UInt8.toNat_zero] at h2
    omega
  induction m with
  | zero => simp [nextPrefixRev, hb1]
  | succ m ih =>
    rw [List.replicate_succ, List.cons_append, nextPrefixRev, if_neg (by decide), ih]

/-- The next prefix of a key, cut at its last byte that is not `0xff`. -/
theorem getNextPrefix_eq {q : Bytes} {b : UInt8} (hb : b ≠ 0xff) (m : ℕ) :
    getNextPrefix (q ++ b :: List.replicate m 0xff) = q ++ [b + 1] := by
  unfold getNextPrefix
  have hrev : (q ++ b :: List.replicate m 0xff).reverse =
      List.replicate m 0xff ++ b :: q.reverse := by
    simp
  rw [hrev, nextPrefixRev_replicate_append hb]
  simp

/-- A key with a byte that is not `0xff` is a part, its last such byte, and a run of `0xff`. -/
theorem exists_eq_append_replicate {p : Bytes} (hp : ∃ x ∈ p, x ≠ 0xff) :
    ∃ q b m, b ≠ 0xff ∧ p = q ++ b :: List.replicate m 0xff := by
  induction p with
  | nil => simp at hp
  | cons a p ih =>
    by_cases hrest : ∃ x ∈ p, x ≠ 0xff
    · -- the last byte that is not `0xff` is in the tail
      obtain ⟨q, b, m, hb, rfl⟩ := ih hrest
      exact ⟨a :: q, b, m, hb, rfl⟩
    · -- the tail is all `0xff`, so the head is the byte
      simp only [not_exists, not_and, not_not] at hrest
      have ha : a ≠ 0xff := by
        obtain ⟨x, hx, hxff⟩ := hp
        rcases List.mem_cons.mp hx with rfl | hx
        · exact hxff
        · exact absurd (hrest x hx) hxff
      exact ⟨[], a, p.length, ha, by rw [List.eq_replicate_iff.mpr ⟨rfl, hrest⟩]; simp⟩

/-- The keys that start with `q ++ [b] ++ 0xff…` are those from it up to `q ++ [b + 1]`. -/
theorem isPrefix_iff_le_lt_append {b : UInt8} (hb : b ≠ 0xff) (m : ℕ) :
    ∀ (q k : Bytes), q ++ b :: List.replicate m 0xff <+: k ↔
      q ++ b :: List.replicate m 0xff ≤ k ∧ k < q ++ [b + 1]
  | [], [] => iff_of_false (by simp) (fun h => not_cons_le_nil h.1)
  | [], c :: k => by
    -- the first byte decides: it is `b`, and then the rest starts with the run of `0xff`
    rw [List.nil_append, List.nil_append, List.cons_prefix_cons, cons_le_cons_iff,
      List.cons_lt_cons_iff, lt_add_one_iff_le hb, ← replicate_ff_le_iff]
    constructor
    · rintro ⟨rfl, h⟩
      exact ⟨.inr ⟨rfl, h⟩, .inl le_rfl⟩
    · rintro ⟨hbc | ⟨hbc, h⟩, hcb | ⟨-, hk⟩⟩
      · exact absurd hcb (not_le.mpr hbc)
      · exact absurd hk (List.not_lt_nil k)
      · exact ⟨hbc, h⟩
      · exact ⟨hbc, h⟩
  | a :: q, [] => iff_of_false (by simp) (fun h => not_cons_le_nil h.1)
  | a :: q, c :: k => by
    -- a common first byte is dropped; a different one puts the key outside on one side
    rw [List.cons_append, List.cons_append, List.cons_prefix_cons, cons_le_cons_iff,
      List.cons_lt_cons_iff, isPrefix_iff_le_lt_append hb m q k]
    rcases lt_trichotomy a c with h | rfl | h
    · simp [h.ne, h.not_gt, Ne.symm h.ne]
    · simp
    · simp [h.ne', h.not_gt]

/-- **`get_next_prefix`.** For a prefix with a byte that is not `0xff`, the keys it starts are
exactly those from it up to its next prefix. -/
theorem isPrefix_iff_le_lt_getNextPrefix {p k : Bytes} (hp : ∃ x ∈ p, x ≠ 0xff) :
    p <+: k ↔ p ≤ k ∧ k < getNextPrefix p := by
  obtain ⟨q, b, m, hb, rfl⟩ := exists_eq_append_replicate hp
  rw [getNextPrefix_eq hb]
  exact isPrefix_iff_le_lt_append hb m q k

/-! ### Full keys -/

/-- `append_key(dest, uint64_t)`: the value's 8 bytes, the most significant first. -/
def appendKey (v : UInt64) : Bytes :=
  (Bytes.toListLE 8 v.toNat).reverse

/-- `create_full_key(prefix, contract, key)`. -/
def createFullKey (viewPrefix : Bytes) (contract : UInt64) (key : Bytes) : Bytes :=
  viewPrefix ++ appendKey contract ++ key

example : createFullKey [0x70] 0x1234 [0x30] = [0x70, 0, 0, 0, 0, 0, 0, 0x12, 0x34, 0x30] := by
  decide

@[simp] theorem length_appendKey (v : UInt64) : (appendKey v).length = 8 := by
  simp [appendKey]

/-- The sentinel `0x00` is below every key whose first byte is not `0x00`. -/
theorem sentinel_lt_of_head {v : UInt8} {p : Bytes} (hv : v ≠ 0x00) : [0x00] < v :: p := by
  rw [List.cons_lt_cons_iff]
  left
  rw [UInt8.lt_iff_toNat_lt]
  have : v.toNat ≠ 0 := fun h => hv (UInt8.toNat_inj.mp h)
  show 0 < v.toNat
  omega

/-- The next prefix of a key whose first byte is not `0xff` is at or below the sentinel `0xff`. -/
theorem getNextPrefix_le_sentinel {v : UInt8} {p : Bytes} (hv : v ≠ 0xff) :
    getNextPrefix (v :: p) ≤ [0xff] := by
  have hne : ∃ x ∈ v :: p, x ≠ 0xff := ⟨v, List.mem_cons_self, hv⟩
  -- `0xff` is above the key and does not start with it, so it is not below the next prefix
  have hle : v :: p ≤ [0xff] := by
    rw [cons_le_cons_iff]
    exact .inl (lt_ff_of_ne hv)
  have hnot : ¬ v :: p <+: [0xff] := by
    rw [List.cons_prefix_cons]
    exact fun h => hv h.1
  rw [isPrefix_iff_le_lt_getNextPrefix hne] at hnot
  exact not_lt.mp fun h => hnot ⟨hle, h⟩

end B1.ChainKv
