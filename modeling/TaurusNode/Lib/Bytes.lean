import Mathlib

/-!
# Bytes

Files as lists of bytes: fixed-width little-endian encodings of naturals, with their round-trip
laws, reading a field at an offset, and overwriting a range of a file in place.
-/

namespace Bytes

/-- The `w` little-endian bytes of `n`; the bits above `8 * w` are dropped. -/
def toListLE : ℕ → ℕ → List UInt8
  | 0, _ => []
  | w + 1, n => UInt8.ofNat (n % 256) :: toListLE w (n / 256)

/-- The natural with these little-endian bytes. -/
def ofListLE : List UInt8 → ℕ
  | [] => 0
  | b :: bs => b.toNat + 256 * ofListLE bs

@[simp] theorem toListLE_zero (n : ℕ) : toListLE 0 n = [] := rfl

@[simp] theorem toListLE_succ (w n : ℕ) :
    toListLE (w + 1) n = UInt8.ofNat (n % 256) :: toListLE w (n / 256) := rfl

@[simp] theorem ofListLE_nil : ofListLE [] = 0 := rfl

@[simp] theorem ofListLE_cons (b : UInt8) (bs : List UInt8) :
    ofListLE (b :: bs) = b.toNat + 256 * ofListLE bs := rfl

@[simp] theorem length_toListLE (w n : ℕ) : (toListLE w n).length = w := by
  induction w generalizing n with
  | zero => rfl
  | succ w ih => simp only [toListLE_succ, List.length_cons, ih]

theorem ofListLE_toListLE (w n : ℕ) : ofListLE (toListLE w n) = n % 256 ^ w := by
  induction w generalizing n with
  | zero => simp only [toListLE_zero, ofListLE_nil, Nat.pow_zero, Nat.mod_one]
  | succ w ih =>
    have h : n % 256 % 2 ^ 8 = n % 256 := Nat.mod_eq_of_lt (Nat.mod_lt n (by decide))
    rw [toListLE_succ, ofListLE_cons, ih, UInt8.toNat_ofNat', h, Nat.pow_succ', Nat.mod_mul]

theorem ofListLE_toListLE_of_lt {w n : ℕ} (h : n < 256 ^ w) : ofListLE (toListLE w n) = n := by
  rw [ofListLE_toListLE, Nat.mod_eq_of_lt h]

/-- Little-endian bytes are base-256 digits, least significant first. -/
theorem ofListLE_eq_ofDigits (l : List UInt8) : ofListLE l = Nat.ofDigits 256 (l.map UInt8.toNat) := by
  induction l with
  | nil => rfl
  | cons b l ih => rw [ofListLE_cons, ih, List.map_cons, Nat.ofDigits_cons]

/-- Only the low `8 * w` bits are written. -/
theorem toListLE_mod (w n : ℕ) : toListLE w (n % 256 ^ w) = toListLE w n := by
  induction w generalizing n with
  | zero => rfl
  | succ w ih =>
    have hlow : n % 256 ^ (w + 1) % 256 = n % 256 := by
      rw [Nat.pow_succ', Nat.mod_mul_right_mod]
    have hhigh : n % 256 ^ (w + 1) / 256 = n / 256 % 256 ^ w := by
      rw [Nat.pow_succ', Nat.mod_mul_right_div_self]
    rw [toListLE_succ, toListLE_succ, hlow, hhigh, ih]

/-- The `w` bytes at offset `pos`: fewer, or none, where the file ends before. -/
def readAt (file : List UInt8) (pos w : ℕ) : List UInt8 :=
  (file.drop pos).take w

/-- Overwrite the bytes from `pos` on with `data`, as a write after a seek does inside a file. -/
def writeAt (file : List UInt8) (pos : ℕ) (data : List UInt8) : List UInt8 :=
  file.take pos ++ data ++ file.drop (pos + data.length)

/-- The file cut to `size` bytes, or extended with zeros to it, as resizing a file does. -/
def resize (file : List UInt8) (size : ℕ) : List UInt8 :=
  file.take size ++ List.replicate (size - file.length) 0

theorem resize_of_le {file : List UInt8} {size : ℕ} (h : size ≤ file.length) :
    resize file size = file.take size := by
  rw [resize, Nat.sub_eq_zero_of_le h, List.replicate_zero, List.append_nil]

/-- Reading past the end of a file reads nothing. -/
theorem readAt_of_length_le {file : List UInt8} {pos : ℕ} (h : file.length ≤ pos) (w : ℕ) :
    readAt file pos w = [] := by
  rw [readAt, List.drop_eq_nil_of_le h, List.take_nil]

theorem readAt_append_left {a b : List UInt8} {pos w : ℕ} (h : pos + w ≤ a.length) :
    readAt (a ++ b) pos w = readAt a pos w := by
  unfold readAt
  rw [List.drop_append_of_le_length (by omega), List.take_append_of_le_length (by simp; omega)]

theorem readAt_append_right {a b : List UInt8} {n : ℕ} (h : a.length = n) (pos w : ℕ) :
    readAt (a ++ b) (n + pos) w = readAt b pos w := by
  unfold readAt
  rw [List.drop_append, List.drop_eq_nil_of_le (by omega), List.nil_append, h,
    Nat.add_sub_cancel_left]

theorem readAt_append_length (a b : List UInt8) (w : ℕ) :
    readAt (a ++ b) a.length w = readAt b 0 w :=
  readAt_append_right rfl 0 w

theorem readAt_of_length_eq {a : List UInt8} {w : ℕ} (h : a.length = w) : readAt a 0 w = a := by
  unfold readAt
  rw [List.drop_zero, List.take_of_length_le (by omega)]

/-- Overwriting a field with as many bytes replaces exactly that field. -/
theorem writeAt_append (a b c data : List UInt8) (h : data.length = b.length) :
    writeAt (a ++ b ++ c) a.length data = a ++ data ++ c := by
  unfold writeAt
  have hdrop : (a ++ b ++ c).drop (a.length + data.length) = c := by
    rw [h, List.append_assoc, List.drop_append, List.drop_eq_nil_of_le (by omega), List.nil_append,
      Nat.add_sub_cancel_left, List.drop_append, List.drop_eq_nil_of_le (by omega),
      List.nil_append, Nat.sub_self, List.drop_zero]
  rw [hdrop, List.append_assoc a b c, List.take_left, List.append_assoc]

theorem length_writeAt {file data : List UInt8} {pos : ℕ} (h : pos + data.length ≤ file.length) :
    (writeAt file pos data).length = file.length := by
  unfold writeAt
  simp only [List.length_append, List.length_take, List.length_drop]
  omega

/-- Overwriting inside the middle part of a file overwrites inside that part. -/
theorem writeAt_append_inside (a b c data : List UInt8) {i : ℕ} (h : i + data.length ≤ b.length) :
    writeAt (a ++ b ++ c) (a.length + i) data = a ++ writeAt b i data ++ c := by
  unfold writeAt
  have htake : (a ++ b ++ c).take (a.length + i) = a ++ b.take i := by
    rw [List.append_assoc, List.take_append, List.take_of_length_le (by omega), Nat.add_sub_cancel_left,
      List.take_append_of_le_length (by omega)]
  have hdrop : (a ++ b ++ c).drop (a.length + i + data.length) = b.drop (i + data.length) ++ c := by
    rw [List.append_assoc, List.drop_append, List.drop_eq_nil_of_le (by omega), List.nil_append,
      show a.length + i + data.length - a.length = i + data.length by omega,
      List.drop_append_of_le_length (by omega)]
  rw [htake, hdrop]
  simp only [List.append_assoc]

/-- An overwrite leaves every byte before it as it was. -/
theorem getElem?_writeAt_of_lt {file data : List UInt8} {pos i : ℕ} (h : i < pos)
    (hpos : pos ≤ file.length) : (writeAt file pos data)[i]? = file[i]? := by
  unfold writeAt
  rw [List.append_assoc, List.getElem?_append_left (by simp; omega), List.getElem?_take_of_lt h]

/-- An overwrite inside a file leaves every byte after it as it was. -/
theorem getElem?_writeAt_of_le {file data : List UInt8} {pos i : ℕ} (h : pos + data.length ≤ i)
    (hfit : pos + data.length ≤ file.length) : (writeAt file pos data)[i]? = file[i]? := by
  unfold writeAt
  have hprefix : (file.take pos ++ data).length = pos + data.length := by simp; omega
  rw [List.getElem?_append_right (by omega), List.getElem?_drop, hprefix]
  congr 1
  omega

end Bytes
