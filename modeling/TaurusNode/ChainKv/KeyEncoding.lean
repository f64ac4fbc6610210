import Mathlib
import TaurusNode.ChainKv.KeyOrder
import TaurusNode.Lib.Bits
import TaurusNode.Lib.LexDigits
import TaurusNode.Lib.BinaryFloat

/-!
# Key encodings of chain_kv

`append_key` (libraries/chain_kv/include/b1/chain_kv/chain_kv.hpp) writes a value into a
database key so that `compare_blob`, the order of the keys, is the order of the values, and
`extract_key` reads it back.

* `compareBlob_neg_iff`, `compareBlob_eq_zero_iff`, `compareBlob_swap`: `compare_blob` is the
  lexicographic order of byte strings with bytes read as unsigned, so `less_blob` is the order
  `KeyOrder` works with (`lessBlob_iff`).
* `appendKeyN_eq_flatMap`: `detail::append_key<T, N>` copies the elements in reverse order, then
  reverses the bytes of the copy; on a little-endian host this writes each element most
  significant byte first, the elements in order. `appendKeyN_uint64` is `KeyOrder.appendKey`.
* `compareBlob_appendKeyN_neg_iff`: encodings of arrays of `N` unsigned integers compare as the
  arrays do, lexicographically by value; `extractKeyN_appendKeyN` reads the array back and
  consumes exactly its `sizeof(T) * N` bytes.
* `toNat_floatToKey`: `float_to_key` maps `-0` to the key of `+0`, a positive float to its bits
  with the sign bit set, and a negative one to the complement of its bits;
  `floatToKey_lt_floatToKey` is the order of IEEE values (`BinaryFloat.Format.value`) carried to
  the keys, and `keyToFloat_floatToKey` the round trip for every float other than `-0`.

Modelled as: an unsigned integer of `w` bytes is a `BitVec (8 * w)`, and a float is its bits, a
`BitVec 64` for `float64_t` and a `BitVec 128` for `float128_t` (whose two words the source says
are laid out as one `uint128_t`). The host is little-endian. `memcmp` returns the difference of
the first differing bytes: C fixes only its sign, which is all that `compare_blob`'s callers read.
`insert_key` writes the same bytes as `append_key` into a buffer in place and is not modelled.
-/

namespace B1.ChainKv

open BinaryFloat

/-! ### compare_blob -/

/-- `memcmp(a, b, n)` over the first `n` bytes, which both strings have. -/
def memcmp : Bytes → Bytes → ℕ → ℤ
  | x :: a, y :: b, n + 1 => if x = y then memcmp a b n else (x.toNat : ℤ) - y.toNat
  | _, _, _ => 0

/-- `compare_blob(a, b)`: `memcmp` over the common length, then the shorter string first. -/
def compareBlob (a b : Bytes) : ℤ :=
  let r := memcmp a b (min a.length b.length)
  if r ≠ 0 then r
  else if a.length < b.length then -1
  else if a.length > b.length then 1
  else 0

/-- `less_blob`, the comparator of the keys. -/
def lessBlob (a b : Bytes) : Prop := compareBlob a b < 0

theorem memcmp_nil_left (b : Bytes) (n : ℕ) : memcmp [] b n = 0 := by
  cases b <;> cases n <;> rfl

theorem memcmp_nil_right (a : Bytes) (n : ℕ) : memcmp a [] n = 0 := by
  cases a <;> cases n <;> rfl

@[simp] theorem compareBlob_nil_nil : compareBlob [] [] = 0 := rfl

@[simp] theorem compareBlob_nil_cons (y : UInt8) (b : Bytes) : compareBlob [] (y :: b) = -1 := by
  simp [compareBlob, memcmp_nil_left]

@[simp] theorem compareBlob_cons_nil (x : UInt8) (a : Bytes) : compareBlob (x :: a) [] = 1 := by
  simp [compareBlob, memcmp_nil_right]

theorem compareBlob_cons_cons_of_ne {x y : UInt8} (hxy : x ≠ y) (a b : Bytes) :
    compareBlob (x :: a) (y :: b) = (x.toNat : ℤ) - y.toNat := by
  have hne : (x.toNat : ℤ) - y.toNat ≠ 0 := by
    have : x.toNat ≠ y.toNat := fun h => hxy (UInt8.toNat_inj.mp h)
    omega
  rw [compareBlob, List.length_cons, List.length_cons, Nat.succ_min_succ, memcmp, if_neg hxy,
    if_pos hne]

@[simp] theorem compareBlob_cons_cons_self (x : UInt8) (a b : Bytes) :
    compareBlob (x :: a) (x :: b) = compareBlob a b := by
  simp only [compareBlob, List.length_cons, Nat.succ_min_succ, memcmp, if_true,
    Nat.add_lt_add_iff_right, gt_iff_lt]

/-- **`compare_blob` is the lexicographic order of the bytes as unsigned values.** -/
theorem compareBlob_neg_iff (a b : Bytes) :
    compareBlob a b < 0 ↔ a.map UInt8.toNat < b.map UInt8.toNat := by
  induction a generalizing b with
  | nil =>
    cases b with
    | nil => simp
    | cons y b => simp [List.nil_lt_cons]
  | cons x a ih =>
    cases b with
    | nil => simp
    | cons y b =>
      rw [List.map_cons, List.map_cons, List.cons_lt_cons_iff]
      by_cases hxy : x = y
      · -- an equal first byte leaves the rest to compare
        subst hxy
        rw [compareBlob_cons_cons_self, ih]
        simp
      · have hne : x.toNat ≠ y.toNat := fun h => hxy (UInt8.toNat_inj.mp h)
        rw [compareBlob_cons_cons_of_ne hxy]
        omega

theorem compareBlob_eq_zero_iff (a b : Bytes) : compareBlob a b = 0 ↔ a = b := by
  induction a generalizing b with
  | nil =>
    cases b with
    | nil => simp
    | cons y b => simp
  | cons x a ih =>
    cases b with
    | nil => simp
    | cons y b =>
      by_cases hxy : x = y
      · subst hxy
        rw [compareBlob_cons_cons_self, ih, List.cons.injEq]
        simp
      · have hne : x.toNat ≠ y.toNat := fun h => hxy (UInt8.toNat_inj.mp h)
        rw [compareBlob_cons_cons_of_ne hxy, List.cons.injEq]
        simp only [hxy, false_and, iff_false]
        omega

/-- Swapping the strings negates `compare_blob`. -/
theorem compareBlob_swap (a b : Bytes) : compareBlob b a = -compareBlob a b := by
  induction a generalizing b with
  | nil =>
    cases b with
    | nil => rfl
    | cons y b => simp
  | cons x a ih =>
    cases b with
    | nil => simp
    | cons y b =>
      by_cases hxy : x = y
      · subst hxy
        rw [compareBlob_cons_cons_self, compareBlob_cons_cons_self, ih]
      · rw [compareBlob_cons_cons_of_ne hxy, compareBlob_cons_cons_of_ne (Ne.symm hxy)]
        omega

theorem compareBlob_pos_iff (a b : Bytes) :
    0 < compareBlob a b ↔ b.map UInt8.toNat < a.map UInt8.toNat := by
  rw [← compareBlob_neg_iff, compareBlob_swap]
  omega

/-- Unsigned bytes compare as their values, and so do byte strings. -/
theorem map_toNat_lt_map_toNat_iff (a b : Bytes) : a.map UInt8.toNat < b.map UInt8.toNat ↔ a < b := by
  induction a generalizing b with
  | nil => cases b <;> simp [List.nil_lt_cons]
  | cons x a ih =>
    cases b with
    | nil => simp
    | cons y b =>
      rw [List.map_cons, List.map_cons, List.cons_lt_cons_iff, List.cons_lt_cons_iff, ih,
        UInt8.lt_iff_toNat_lt, UInt8.toNat_inj]

/-- `less_blob` is the order on keys that `KeyOrder` works with. -/
theorem lessBlob_iff (a b : Bytes) : lessBlob a b ↔ a < b := by
  rw [lessBlob, compareBlob_neg_iff, map_toNat_lt_map_toNat_iff]

/-! ### Unsigned integers and arrays of them -/

/-- The bytes of an unsigned integer of `w` bytes in the host's memory, least significant first. -/
def hostBytes (w : ℕ) (x : BitVec (8 * w)) : Bytes := Bytes.toListLE w x.toNat

/-- An unsigned integer of `w` bytes read from the host's memory. -/
def hostValue (w : ℕ) (bs : Bytes) : BitVec (8 * w) := BitVec.ofNat (8 * w) (Bytes.ofListLE bs)

/-- `detail::append_key<T, N>(dest, value)`, with `T` of `w` bytes: the `N` elements copied in
reverse order into `t_array`, the bytes of `t_array` reversed and appended to `dest`. The overloads
for an unsigned `T` and for `std::array<T, N>` are this with one element and with `N`. -/
def appendKeyN (w : ℕ) (dest : Bytes) (value : List (BitVec (8 * w))) : Bytes :=
  let tArray := value.reverse
  dest ++ (tArray.flatMap (hostBytes w)).reverse

/-- `t_type t_array[N]` over the bytes copied into it. -/
def readArray (w : ℕ) : ℕ → Bytes → List (BitVec (8 * w))
  | 0, _ => []
  | n + 1, bs => hostValue w (bs.take w) :: readArray w n (bs.drop w)

/-- `detail::extract_key<It, T, N>(key_loc, key_end, key)`: nothing when fewer than
`sizeof(T) * N` bytes are left, and otherwise the `N` elements and the bytes after them: the
bytes copied into `t_array` and reversed there, then the elements copied out in reverse order. -/
def extractKeyN (w N : ℕ) (key : Bytes) : Option (List (BitVec (8 * w)) × Bytes) :=
  if key.length < w * N then none
  else
    let tArray := readArray w N (key.take (w * N)).reverse
    some (tArray.reverse, key.drop (w * N))

@[simp] theorem length_hostBytes (w : ℕ) (x : BitVec (8 * w)) : (hostBytes w x).length = w :=
  Bytes.length_toListLE w x.toNat

theorem toNat_lt_256_pow {w : ℕ} (x : BitVec (8 * w)) : x.toNat < 256 ^ w := by
  have h : (256 : ℕ) ^ w = 2 ^ (8 * w) := by rw [Nat.pow_mul]
  rw [h]
  exact x.isLt

theorem hostValue_hostBytes (w : ℕ) (x : BitVec (8 * w)) : hostValue w (hostBytes w x) = x := by
  apply BitVec.eq_of_toNat_eq
  rw [hostValue, hostBytes, Bytes.ofListLE_toListLE_of_lt (toNat_lt_256_pow x), BitVec.toNat_ofNat,
    Nat.mod_eq_of_lt x.isLt]

/-- The value of an element's bytes read as base-256 digits. -/
theorem ofDigits_hostBytes (w : ℕ) (x : BitVec (8 * w)) :
    Nat.ofDigits 256 ((hostBytes w x).map UInt8.toNat) = x.toNat := by
  rw [← Bytes.ofListLE_eq_ofDigits, hostBytes, Bytes.ofListLE_toListLE_of_lt (toNat_lt_256_pow x)]

/-- **The encoding writes each element most significant byte first, the elements in order.** -/
theorem appendKeyN_eq_flatMap (w : ℕ) (dest : Bytes) (xs : List (BitVec (8 * w))) :
    appendKeyN w dest xs = dest ++ xs.flatMap fun x => (hostBytes w x).reverse := by
  rw [appendKeyN, List.reverse_flatMap, List.reverse_reverse]
  rfl

example : appendKeyN 2 [0x70] [0x0102, 0x0304] = [0x70, 0x01, 0x02, 0x03, 0x04] := by decide

/-- `append_key(dest, uint64_t)` is the big-endian key of `KeyOrder`. -/
theorem appendKeyN_uint64 (dest : Bytes) (v : UInt64) :
    appendKeyN 8 dest [v.toBitVec] = dest ++ appendKey v := by
  rw [appendKeyN_eq_flatMap, List.flatMap_singleton]
  rfl

@[simp] theorem length_appendKeyN (w : ℕ) (dest : Bytes) (xs : List (BitVec (8 * w))) :
    (appendKeyN w dest xs).length = dest.length + w * xs.length := by
  rw [appendKeyN_eq_flatMap, List.length_append, List.length_flatMap]
  simp [Nat.mul_comm]

theorem readArray_flatMap (w : ℕ) (xs : List (BitVec (8 * w))) :
    readArray w xs.length (xs.flatMap (hostBytes w)) = xs := by
  induction xs with
  | nil => rfl
  | cons x xs ih =>
    have hlen : (hostBytes w x).length = w := length_hostBytes w x
    rw [List.flatMap_cons, List.length_cons, readArray, List.take_left' hlen,
      List.drop_left' hlen, hostValue_hostBytes, ih]

/-- **Extraction reads the encoded array back and consumes exactly its `w * N` bytes.** -/
theorem extractKeyN_appendKeyN (w : ℕ) (xs : List (BitVec (8 * w))) (rest : Bytes) :
    extractKeyN w xs.length (appendKeyN w [] xs ++ rest) = some (xs, rest) := by
  have hlen : (appendKeyN w [] xs).length = w * xs.length := by simp
  have hfits : ¬ (appendKeyN w [] xs ++ rest).length < w * xs.length := by
    rw [List.length_append, hlen]
    omega
  rw [extractKeyN, if_neg hfits, List.take_left' hlen, List.drop_left' hlen, appendKeyN]
  dsimp only
  rw [List.nil_append, List.reverse_reverse, ← List.length_reverse, readArray_flatMap,
    List.reverse_reverse]

/-- The digits of an encoding, least significant first, are the elements' bytes. -/
theorem ofDigits_appendKeyN (w : ℕ) (xs : List (BitVec (8 * w))) :
    Nat.ofDigits 256 ((appendKeyN w [] xs).map UInt8.toNat).reverse =
      Nat.ofDigits (256 ^ w) (xs.map BitVec.toNat).reverse := by
  have hblocks : ((appendKeyN w [] xs).map UInt8.toNat).reverse =
      xs.reverse.flatMap fun x => (hostBytes w x).map UInt8.toNat := by
    rw [appendKeyN, List.nil_append, List.map_reverse, List.reverse_reverse, List.map_flatMap]
  rw [hblocks, LexDigits.ofDigits_flatMap _ (fun x => (List.length_map _).trans (length_hostBytes w x)),
    ← List.map_reverse]
  simp only [ofDigits_hostBytes]

theorem forall_mem_map_toNat_lt (a : Bytes) : ∀ d ∈ a.map UInt8.toNat, d < 256 := by
  intro d hd
  obtain ⟨b, -, rfl⟩ := List.mem_map.mp hd
  exact b.toNat_lt

theorem forall_mem_map_bitVec_toNat_lt {w : ℕ} (xs : List (BitVec (8 * w))) :
    ∀ d ∈ xs.map BitVec.toNat, d < 256 ^ w := by
  intro d hd
  obtain ⟨x, -, rfl⟩ := List.mem_map.mp hd
  exact toNat_lt_256_pow x

/-- **Encodings of arrays of one length compare as the arrays, lexicographically by value.** -/
theorem compareBlob_appendKeyN_neg_iff (w : ℕ) {xs ys : List (BitVec (8 * w))}
    (hlen : xs.length = ys.length) :
    compareBlob (appendKeyN w [] xs) (appendKeyN w [] ys) < 0 ↔
      xs.map BitVec.toNat < ys.map BitVec.toNat := by
  have hbytes : ((appendKeyN w [] xs).map UInt8.toNat).length =
      ((appendKeyN w [] ys).map UInt8.toNat).length := by simp [hlen]
  rw [compareBlob_neg_iff, LexDigits.lt_iff_ofDigits_reverse_lt hbytes (forall_mem_map_toNat_lt _)
    (forall_mem_map_toNat_lt _), ofDigits_appendKeyN, ofDigits_appendKeyN,
    ← LexDigits.lt_iff_ofDigits_reverse_lt (by simp [hlen]) (forall_mem_map_bitVec_toNat_lt xs)
      (forall_mem_map_bitVec_toNat_lt ys)]

/-- Different arrays have different encodings. -/
theorem compareBlob_appendKeyN_eq_zero_iff (w : ℕ) {xs ys : List (BitVec (8 * w))}
    (hlen : xs.length = ys.length) :
    compareBlob (appendKeyN w [] xs) (appendKeyN w [] ys) = 0 ↔ xs = ys := by
  rw [compareBlob_eq_zero_iff]
  constructor
  · intro henc
    have hread := extractKeyN_appendKeyN w xs []
    rw [henc, hlen, extractKeyN_appendKeyN] at hread
    exact (Prod.mk.inj (Option.some.inj hread)).1.symm
  · rintro rfl
    rfl

theorem compareBlob_appendKeyN_pos_iff (w : ℕ) {xs ys : List (BitVec (8 * w))}
    (hlen : xs.length = ys.length) :
    0 < compareBlob (appendKeyN w [] xs) (appendKeyN w [] ys) ↔
      ys.map BitVec.toNat < xs.map BitVec.toNat := by
  rw [compareBlob_swap, ← compareBlob_appendKeyN_neg_iff w hlen.symm]
  omega

/-! ### Floats -/

/-- `signbit`, `static_cast<UInt>(1) << (digits - 1)` in an unsigned word of `n` bits; as the
bits of a float it is `-0`. -/
def signbit (n : ℕ) : BitVec n := 1#n <<< (n - 1)

/-- `detail::float_to_key(value)`, on the float's bits. -/
def floatToKey {n : ℕ} (value : BitVec n) : BitVec n :=
  let result := if value = signbit n then 0 else value
  let mask : BitVec n := if result &&& signbit n ≠ 0 then ~~~0 else 0
  result ^^^ (mask ||| signbit n)

/-- `detail::key_to_float(value)`, giving the float's bits. -/
def keyToFloat {n : ℕ} (value : BitVec n) : BitVec n :=
  let mask : BitVec n := if value &&& signbit n = 0 then ~~~0 else 0
  value ^^^ (mask ||| signbit n)

/-- `append_key(dest, value)` for a float of `w` bytes: its key, as one unsigned word. -/
def appendKeyFloat (w : ℕ) (dest : Bytes) (value : BitVec (8 * w)) : Bytes :=
  appendKeyN w dest [floatToKey value]

/-- `append_key(dest, float64_t)`. -/
def appendKeyFloat64 (dest : Bytes) (value : BitVec 64) : Bytes := appendKeyFloat 8 dest value

/-- `append_key(dest, float128_t)`. -/
def appendKeyFloat128 (dest : Bytes) (value : BitVec 128) : Bytes := appendKeyFloat 16 dest value

/-- `extract_key(key_loc, key_end, value)` for a float of `w` bytes: one unsigned word read back
through `key_to_float`. -/
def extractKeyFloat (w : ℕ) (key : Bytes) : Option (BitVec (8 * w) × Bytes) :=
  match extractKeyN w 1 key with
  | some ([k], rest) => some (keyToFloat k, rest)
  | _ => none

/-- `extract_key(key_loc, key_end, float64_t&)`. -/
def extractKeyFloat64 (key : Bytes) : Option (BitVec 64 × Bytes) := extractKeyFloat 8 key

/-- `extract_key(key_loc, key_end, float128_t&)`. -/
def extractKeyFloat128 (key : Bytes) : Option (BitVec 128 × Bytes) := extractKeyFloat 16 key

/-- The two masks of `float_to_key` and `key_to_float` with the sign bit. -/
theorem zero_or_signbit (n : ℕ) : (0 : BitVec n) ||| signbit n = signbit n := BitVec.zero_or

theorem not_zero_or_signbit (n : ℕ) : (~~~0 : BitVec n) ||| signbit n = BitVec.allOnes n := by
  rw [show (~~~0 : BitVec n) = BitVec.allOnes n from BitVec.not_zero, BitVec.allOnes_or]

/-- `-0` and `+0` have one key: `float_to_key` replaces `-0` by `+0` before anything else. -/
theorem floatToKey_signbit (n : ℕ) : floatToKey (signbit n) = floatToKey 0 := by
  simp only [floatToKey, if_true, ite_self]

section Words

variable {n : ℕ} (hn : 0 < n)
include hn

theorem toNat_signbit : (signbit n).toNat = 2 ^ (n - 1) :=
  Bits.toNat_one_shiftLeft_pred hn

theorem and_signbit_eq_zero_iff (x : BitVec n) : x &&& signbit n = 0 ↔ x.toNat < 2 ^ (n - 1) :=
  Bits.and_one_shiftLeft_pred_eq_zero_iff hn x

theorem two_pow_eq_two_mul : 2 ^ n = 2 * 2 ^ (n - 1) := by
  have h : n = (n - 1) + 1 := by omega
  calc 2 ^ n = 2 ^ ((n - 1) + 1) := by rw [← h]
    _ = 2 * 2 ^ (n - 1) := Nat.pow_succ'

/-- **What `float_to_key` does to a word**: a positive float gets its sign bit set, `-0` the key
of `+0`, and a negative float the complement of its bits. -/
theorem toNat_floatToKey (x : BitVec n) :
    (floatToKey x).toNat =
      if x.toNat < 2 ^ (n - 1) then x.toNat + 2 ^ (n - 1)
      else if x.toNat = 2 ^ (n - 1) then 2 ^ (n - 1)
      else 2 ^ n - 1 - x.toNat := by
  have hsign := toNat_signbit hn
  rcases Nat.lt_trichotomy x.toNat (2 ^ (n - 1)) with hlt | heq | hgt
  · -- a positive float: its sign bit set
    have hne : x ≠ signbit n := fun h => by rw [h, hsign] at hlt; exact lt_irrefl _ hlt
    have hclear : x &&& signbit n = 0 := (and_signbit_eq_zero_iff hn x).mpr hlt
    simp only [floatToKey, if_neg hne, hclear, ne_eq, not_true_eq_false, if_false,
      zero_or_signbit, if_pos hlt]
    rw [BitVec.toNat_xor, hsign, Bits.xor_two_pow_of_lt hlt]
  · -- `-0`: the key of `+0`
    have hx0 : x = signbit n := BitVec.eq_of_toNat_eq (heq.trans hsign.symm)
    have hzero : (0 : BitVec n) &&& signbit n = 0 := BitVec.zero_and
    simp only [floatToKey, if_pos hx0, hzero, ne_eq, not_true_eq_false, if_false,
      zero_or_signbit, heq, lt_irrefl, if_true]
    rw [show (0 : BitVec n) ^^^ signbit n = signbit n from BitVec.zero_xor, hsign]
  · -- a negative float: every bit flipped
    have hne : x ≠ signbit n := fun h => by rw [h, hsign] at hgt; exact lt_irrefl _ hgt
    have hset : x &&& signbit n ≠ 0 := fun h => by
      have := (and_signbit_eq_zero_iff hn x).mp h
      omega
    simp only [floatToKey, if_neg hne, if_pos hset, not_zero_or_signbit, BitVec.xor_allOnes,
      BitVec.toNat_not, if_neg (Nat.not_lt.mpr hgt.le), if_neg (Nat.ne_of_gt hgt)]

-- `1.0` and `-1.0`
example : floatToKey (0x3FF0000000000000 : BitVec 64) = 0xBFF0000000000000 := by decide
example : floatToKey (0xBFF0000000000000 : BitVec 64) = 0x400FFFFFFFFFFFFF := by decide

/-- `key_to_float` undoes each case: a key with the sign bit clear is a negative float's
complement, and one with the sign bit set a positive float's bits with that bit added. -/
theorem toNat_keyToFloat (k : BitVec n) :
    (keyToFloat k).toNat =
      if k.toNat < 2 ^ (n - 1) then 2 ^ n - 1 - k.toNat else k.toNat - 2 ^ (n - 1) := by
  by_cases hlt : k.toNat < 2 ^ (n - 1)
  · -- a key below the sign bit is a negative float's complement
    have hclear : k &&& signbit n = 0 := (and_signbit_eq_zero_iff hn k).mpr hlt
    simp only [keyToFloat, if_pos hclear, not_zero_or_signbit, BitVec.xor_allOnes,
      BitVec.toNat_not, if_pos hlt]
  · have hset : ¬ k &&& signbit n = 0 := fun h => hlt ((and_signbit_eq_zero_iff hn k).mp h)
    have hk : k.toNat < 2 ^ (n - 1 + 1) := by
      rw [Nat.sub_add_cancel hn]
      exact k.isLt
    simp only [keyToFloat, if_neg hset, zero_or_signbit, if_neg hlt]
    rw [BitVec.toNat_xor, toNat_signbit hn, Bits.xor_two_pow_of_le (Nat.not_lt.mp hlt) hk]

/-- **The round trip**: every float other than `-0` comes back from its key. -/
theorem keyToFloat_floatToKey {x : BitVec n} (hx : x ≠ signbit n) : keyToFloat (floatToKey x) = x := by
  have hxne : x.toNat ≠ 2 ^ (n - 1) :=
    fun h => hx (BitVec.eq_of_toNat_eq (h.trans (toNat_signbit hn).symm))
  have hlt := x.isLt
  have h2 := two_pow_eq_two_mul hn
  apply BitVec.eq_of_toNat_eq
  rw [toNat_keyToFloat hn, toNat_floatToKey hn]
  split_ifs <;> omega

/-- Every float comes back from its key, `-0` as `+0`. -/
theorem keyToFloat_floatToKey_eq (x : BitVec n) :
    keyToFloat (floatToKey x) = if x = signbit n then 0 else x := by
  have hzero : (0 : BitVec n) ≠ signbit n := by
    intro h
    have hsign := toNat_signbit hn
    rw [← h] at hsign
    exact (Nat.two_pow_pos _).ne' (hsign.symm.trans BitVec.toNat_zero)
  split_ifs with hx
  · rw [hx, floatToKey_signbit, keyToFloat_floatToKey hn hzero]
  · exact keyToFloat_floatToKey hn hx

end Words

section Order

variable {f : BinaryFloat.Format} {n : ℕ} (hf : 1 + f.e + f.m = n)
include hf

theorem negative_toNat_iff (a : BitVec n) : f.negative a.toNat ↔ 2 ^ (n - 1) ≤ a.toNat := by
  rw [BinaryFloat.Format.negative, show f.e + f.m = n - 1 by omega]

/-- The magnitude of a float's bits: the bits below the sign bit. -/
theorem magnitude_toNat (a : BitVec n) :
    f.magnitude a.toNat = if 2 ^ (n - 1) ≤ a.toNat then a.toNat - 2 ^ (n - 1) else a.toNat := by
  split_ifs with hneg
  · have hwidth : a.toNat < 2 ^ (1 + f.e + f.m) := hf ▸ a.isLt
    rw [f.magnitude_of_negative hwidth ((negative_toNat_iff hf a).mpr hneg),
      show f.e + f.m = n - 1 by omega]
  · exact f.magnitude_of_not_negative (fun h => hneg ((negative_toNat_iff hf a).mp h))

/-- **Keys are in the order of the floats' values.** Two positive floats are ordered by their
magnitudes, as are their keys; two negative ones the other way round, as are the complements of
their bits; and a negative float's key is at most the key of `+0`, below every positive float's
key, and equal to it only at `-0`, which is not below `+0`. -/
theorem floatToKey_lt_floatToKey {x y : BitVec n} (hx : ¬ f.isNaN x.toNat)
    (hy : ¬ f.isNaN y.toNat) (h : f.value x.toNat < f.value y.toNat) :
    (floatToKey x).toNat < (floatToKey y).toNat := by
  have hn : 0 < n := by omega
  have h2 := two_pow_eq_two_mul hn
  have hxlt := x.isLt
  have hylt := y.isLt
  rw [toNat_floatToKey hn, toNat_floatToKey hn]
  rcases f.lt_cases hx hy h with ⟨hnx, hny, hm⟩ | ⟨hnx, hny, hm⟩ | ⟨hnx, hny, hm⟩
  · -- both positive
    rw [negative_toNat_iff hf] at hnx hny
    rw [magnitude_toNat hf, magnitude_toNat hf, if_neg hnx, if_neg hny] at hm
    split_ifs <;> omega
  · -- both negative
    rw [negative_toNat_iff hf] at hnx hny
    rw [magnitude_toNat hf, magnitude_toNat hf, if_pos hnx, if_pos hny] at hm
    split_ifs <;> omega
  · -- negative against positive, not both zero
    rw [negative_toNat_iff hf] at hnx hny
    rw [magnitude_toNat hf, magnitude_toNat hf, if_pos hnx, if_neg hny] at hm
    split_ifs <;> omega

end Order

/-- **Reading a float's key back** gives the float, `-0` as `+0`. -/
theorem extractKeyFloat_appendKeyFloat {w : ℕ} (hw : 0 < w) (x : BitVec (8 * w)) (rest : Bytes) :
    extractKeyFloat w (appendKeyFloat w [] x ++ rest) =
      some (if x = signbit (8 * w) then 0 else x, rest) := by
  have hread : extractKeyN w 1 (appendKeyFloat w [] x ++ rest) = some ([floatToKey x], rest) :=
    extractKeyN_appendKeyN w [floatToKey x] rest
  rw [extractKeyFloat, hread]
  dsimp only
  rw [keyToFloat_floatToKey_eq (by omega)]

/-- The keys of two floats, each written as one element of `w` bytes, compare as the floats. -/
theorem compareBlob_floatToKey_neg {f : BinaryFloat.Format} {w : ℕ} (hf : 1 + f.e + f.m = 8 * w)
    {x y : BitVec (8 * w)} (hx : ¬ f.isNaN x.toNat) (hy : ¬ f.isNaN y.toNat)
    (h : f.value x.toNat < f.value y.toNat) :
    compareBlob (appendKeyFloat w [] x) (appendKeyFloat w [] y) < 0 := by
  have hlen : [floatToKey x].length = [floatToKey y].length := rfl
  rw [appendKeyFloat, appendKeyFloat, compareBlob_appendKeyN_neg_iff w hlen, List.map_singleton, List.map_singleton,
    List.cons_lt_cons_iff]
  exact .inl (floatToKey_lt_floatToKey hf hx hy h)

/-! ### The encodings together -/

theorem appendKey_orderPreserving_invertible :
    (∀ (w : ℕ) (xs ys : List (BitVec (8 * w))), xs.length = ys.length →
      (compareBlob (appendKeyN w [] xs) (appendKeyN w [] ys) < 0 ↔
          xs.map BitVec.toNat < ys.map BitVec.toNat) ∧
        (compareBlob (appendKeyN w [] xs) (appendKeyN w [] ys) = 0 ↔ xs = ys) ∧
        (0 < compareBlob (appendKeyN w [] xs) (appendKeyN w [] ys) ↔
          ys.map BitVec.toNat < xs.map BitVec.toNat)) ∧
    (∀ (w : ℕ) (xs : List (BitVec (8 * w))) (rest : Bytes),
      (appendKeyN w [] xs).length = w * xs.length ∧
        extractKeyN w xs.length (appendKeyN w [] xs ++ rest) = some (xs, rest)) ∧
    (∀ x y : BitVec 64, ¬ Format.binary64.isNaN x.toNat → ¬ Format.binary64.isNaN y.toNat →
      Format.binary64.value x.toNat < Format.binary64.value y.toNat →
      compareBlob (appendKeyFloat64 [] x) (appendKeyFloat64 [] y) < 0) ∧
    (∀ x y : BitVec 128, ¬ Format.binary128.isNaN x.toNat → ¬ Format.binary128.isNaN y.toNat →
      Format.binary128.value x.toNat < Format.binary128.value y.toNat →
      compareBlob (appendKeyFloat128 [] x) (appendKeyFloat128 [] y) < 0) ∧
    appendKeyFloat64 [] (signbit 64) = appendKeyFloat64 [] 0 ∧
    appendKeyFloat128 [] (signbit 128) = appendKeyFloat128 [] 0 ∧
    (∀ x : BitVec 64, x ≠ signbit 64 → keyToFloat (floatToKey x) = x) ∧
    (∀ x : BitVec 128, x ≠ signbit 128 → keyToFloat (floatToKey x) = x) := by
  refine ⟨fun w xs ys hlen => ⟨compareBlob_appendKeyN_neg_iff w hlen,
      compareBlob_appendKeyN_eq_zero_iff w hlen, compareBlob_appendKeyN_pos_iff w hlen⟩,
    fun w xs rest => ⟨by simp, extractKeyN_appendKeyN w xs rest⟩,
    fun x y hx hy h => @compareBlob_floatToKey_neg Format.binary64 8 rfl x y hx hy h,
    fun x y hx hy h => @compareBlob_floatToKey_neg Format.binary128 16 rfl x y hx hy h,
    ?_, ?_, fun x hx => keyToFloat_floatToKey (by decide) hx,
    fun x hx => keyToFloat_floatToKey (by decide) hx⟩
  · -- `-0` and `+0`, in either width
    rw [appendKeyFloat64, appendKeyFloat, appendKeyFloat64, appendKeyFloat, floatToKey_signbit]
  · rw [appendKeyFloat128, appendKeyFloat, appendKeyFloat128, appendKeyFloat, floatToKey_signbit]

theorem appendKey_orderPreserving_invertible_uint16 :
    compareBlob (appendKeyN 2 [] [0x0102, 0x0304]) (appendKeyN 2 [] [0x0102, 0x0401]) < 0 :=
  (appendKey_orderPreserving_invertible.1 2 [0x0102, 0x0304] [0x0102, 0x0401] rfl).1.mpr
    (by decide)

end B1.ChainKv
