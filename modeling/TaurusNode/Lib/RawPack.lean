import Mathlib

/-!
# Packing values into bytes

A `Packer` writes a value as bytes and reads one value back off the front of a buffer, handing
back the bytes after it. Its law, a field of the structure, is that reading what was written gets
the value and exactly the bytes that followed, whatever they are: so packings put one after the
other read back one after the other, and a packer that loses data cannot be built.

The combinators are those of a field-by-field binary format: a single byte, a fixed number of
raw bytes, a variable-length unsigned integer (seven bits a byte, low groups first, the high
bit set on every byte but the last), a pair (two fields in order), a transport along a
bijection (a record as the tuple of its fields), a vector (its count, then its elements) and a
choice between two types (an index, then the value).

`size` is the number of bytes a value packs into; each combinator has a `@[simp]` lemma that
computes it from the sizes of the parts, so that the size of a nested value unfolds by `simp`.
-/

namespace RawPack

/-! ### Variable-length unsigned integers -/

/-- The bytes of `n`, seven bits a byte, low groups first; every byte but the last has its high
bit set. -/
def varintBytes (n : ℕ) : List UInt8 :=
  if n < 128 then [UInt8.ofNat n] else UInt8.ofNat (n % 128 + 128) :: varintBytes (n / 128)
termination_by n
decreasing_by omega

/-- Reads a variable-length unsigned integer off the front of a buffer. -/
def readVarint : List UInt8 → Option (ℕ × List UInt8)
  | [] => none
  | b :: rest =>
    if b.toNat < 128 then some (b.toNat, rest)
    else (readVarint rest).map (Prod.map (fun m => b.toNat - 128 + 128 * m) id)

theorem varintBytes_of_lt {n : ℕ} (h : n < 128) : varintBytes n = [UInt8.ofNat n] := by
  rw [varintBytes, if_pos h]

theorem varintBytes_of_le {n : ℕ} (h : 128 ≤ n) :
    varintBytes n = UInt8.ofNat (n % 128 + 128) :: varintBytes (n / 128) := by
  rw [varintBytes, if_neg (by omega)]

/-- A count below 128 takes one byte: so does the index of every choice here. -/
@[simp] theorem length_varintBytes_of_lt {n : ℕ} (h : n < 128) : (varintBytes n).length = 1 := by
  rw [varintBytes_of_lt h, List.length_singleton]

theorem readVarint_varintBytes (n : ℕ) (rest : List UInt8) :
    readVarint (varintBytes n ++ rest) = some (n, rest) := by
  induction n using Nat.strong_induction_on with
  | _ n ih =>
    by_cases h : n < 128
    · have hb : (UInt8.ofNat n).toNat = n := UInt8.toNat_ofNat_of_lt (show n < 256 by omega)
      rw [varintBytes_of_lt h, List.singleton_append, readVarint, hb, if_pos h]
    · -- one low group with the high bit set, then the integer of the higher groups
      have hb : (UInt8.ofNat (n % 128 + 128)).toNat = n % 128 + 128 :=
        UInt8.toNat_ofNat_of_lt (show n % 128 + 128 < 256 by omega)
      rw [varintBytes_of_le (by omega), List.cons_append, readVarint, hb, if_neg (by omega),
        ih (n / 128) (by omega), Option.map_some, Prod.map_apply, id]
      congr 2
      omega

/-! ### Packers -/

/-- A packing of `α` into bytes, and the reading back of one value off the front of a buffer with
the bytes after it; reading what was packed gives the value and the rest, whatever follows. -/
structure Packer (α : Type) where
  pack : α → List UInt8
  unpack : List UInt8 → Option (α × List UInt8)
  unpack_pack : ∀ a rest, unpack (pack a ++ rest) = some (a, rest)

namespace Packer

variable {α β : Type}

/-- The number of bytes `a` packs into. -/
def size (p : Packer α) (a : α) : ℕ := (p.pack a).length

theorem unpack_pack_nil (p : Packer α) (a : α) : p.unpack (p.pack a) = some (a, []) := by
  simpa using p.unpack_pack a []

/-- Two values that pack alike are equal. -/
theorem pack_injective (p : Packer α) : Function.Injective p.pack := by
  intro a b h
  have hb := p.unpack_pack_nil b
  rw [← h, p.unpack_pack_nil a, Option.some.injEq, Prod.mk.injEq] at hb
  exact hb.1

/-- One byte as it is. -/
def byte : Packer UInt8 where
  pack b := [b]
  unpack
    | [] => none
    | b :: rest => some (b, rest)
  unpack_pack _ _ := rfl

@[simp] theorem size_byte (b : UInt8) : byte.size b = 1 := rfl

/-- An enumeration as the one byte of its code; a byte that codes no value does not unpack. -/
def enum (code : α → UInt8) (ofCode : UInt8 → Option α) (h : ∀ a, ofCode (code a) = some a) :
    Packer α where
  pack a := [code a]
  unpack
    | [] => none
    | b :: rest => (ofCode b).map (·, rest)
  unpack_pack a rest := by
    rw [List.singleton_append]
    simp only [h, Option.map_some]

@[simp] theorem size_enum (code : α → UInt8) (ofCode : UInt8 → Option α)
    (h : ∀ a, ofCode (code a) = some a) (a : α) : (enum code ofCode h).size a = 1 := rfl

/-- `n` raw bytes with no count before them, as a fixed-size array is packed. -/
def fixed (n : ℕ) : Packer {l : List UInt8 // l.length = n} where
  pack l := l.1
  unpack bs := if h : n ≤ bs.length then some (⟨bs.take n, by simpa using h⟩, bs.drop n) else none
  unpack_pack l rest := by
    have hn : n ≤ (l.1 ++ rest).length := by simp [l.2]
    rw [dif_pos hn]
    simp only [List.take_left' l.2, List.drop_left' l.2]

@[simp] theorem size_fixed (n : ℕ) (l : {l : List UInt8 // l.length = n}) : (fixed n).size l = n :=
  l.2

/-- A variable-length unsigned integer. -/
def varint : Packer ℕ where
  pack := varintBytes
  unpack := readVarint
  unpack_pack := readVarint_varintBytes

@[simp] theorem size_varint (n : ℕ) : varint.size n = (varintBytes n).length := rfl

/-- Two fields in order. -/
def prod (pa : Packer α) (pb : Packer β) : Packer (α × β) where
  pack x := pa.pack x.1 ++ pb.pack x.2
  unpack bs := (pa.unpack bs).bind fun x => (pb.unpack x.2).map (Prod.map (Prod.mk x.1) id)
  unpack_pack x rest := by
    rw [List.append_assoc, pa.unpack_pack, Option.bind_some, pb.unpack_pack, Option.map_some]
    rfl

@[simp] theorem size_prod (pa : Packer α) (pb : Packer β) (x : α × β) :
    (pa.prod pb).size x = pa.size x.1 + pb.size x.2 :=
  List.length_append

/-- `β` packed as `α`, through a map back that `f` undoes: a record as the tuple of its fields. -/
def map (p : Packer α) (f : α → β) (g : β → α) (hfg : ∀ b, f (g b) = b) : Packer β where
  pack b := p.pack (g b)
  unpack bs := (p.unpack bs).map (Prod.map f id)
  unpack_pack b rest := by
    rw [p.unpack_pack, Option.map_some, Prod.map_apply, hfg, id]

@[simp] theorem size_map (p : Packer α) (f : α → β) (g : β → α) (hfg : ∀ b, f (g b) = b) (b : β) :
    (p.map f g hfg).size b = p.size (g b) := rfl

/-- Reads `n` values one after the other. -/
def unpackMany (p : Packer α) : ℕ → List UInt8 → Option (List α × List UInt8)
  | 0, bs => some ([], bs)
  | n + 1, bs =>
    (p.unpack bs).bind fun x => (p.unpackMany n x.2).map (Prod.map (List.cons x.1) id)

theorem unpackMany_pack (p : Packer α) (l : List α) (rest : List UInt8) :
    p.unpackMany l.length (l.flatMap p.pack ++ rest) = some (l, rest) := by
  induction l with
  | nil => rfl
  | cons a l ih =>
    rw [List.length_cons, List.flatMap_cons, List.append_assoc, unpackMany, p.unpack_pack,
      Option.bind_some, ih, Option.map_some]
    rfl

/-- A vector: the count, then the elements in order. -/
def list (p : Packer α) : Packer (List α) where
  pack l := varintBytes l.length ++ l.flatMap p.pack
  unpack bs := (readVarint bs).bind fun x => p.unpackMany x.1 x.2
  unpack_pack l rest := by
    rw [List.append_assoc, readVarint_varintBytes, Option.bind_some, unpackMany_pack]

theorem size_list (p : Packer α) (l : List α) :
    (p.list).size l = (varintBytes l.length).length + (l.map p.size).sum := by
  simp only [size, list, List.length_append, List.length_flatMap]
  rfl

/-- A vector of bytes. -/
def bytes : Packer (List UInt8) := byte.list

@[simp] theorem size_bytes (l : List UInt8) : bytes.size l = (varintBytes l.length).length + l.length := by
  have hbyte : byte.size = fun _ => 1 := rfl
  rw [bytes, size_list, hbyte, List.map_const', List.sum_replicate, smul_eq_mul, Nat.mul_one]

/-- A vector packs into no more bytes than the bounds of its elements, when each element packs
into no more than its bound and `bound` succeeds on every element. -/
theorem size_list_le (p : Packer α) (bound : α → Option ℕ) (hbound : ∀ a m, bound a = some m → p.size a ≤ m)
    {l : List α} {ms : List ℕ} (h : l.mapM bound = some ms) :
    p.list.size l ≤ (varintBytes l.length).length + ms.sum := by
  rw [size_list]
  suffices hsum : ∀ (l : List α) (ms : List ℕ), l.mapM bound = some ms → (l.map p.size).sum ≤ ms.sum from
    Nat.add_le_add_left (hsum l ms h) _
  intro l
  induction l with
  | nil =>
    intro ms hms
    simp_all
  | cons a l ih =>
    intro ms hms
    simp only [List.mapM_cons, Option.bind_eq_bind, Option.bind_eq_some_iff, Option.pure_def,
      Option.some.injEq] at hms
    obtain ⟨m, hm, ms', hms', rfl⟩ := hms
    rw [List.map_cons, List.sum_cons, List.sum_cons]
    exact Nat.add_le_add (hbound a m hm) (ih ms' hms')

/-- A choice between two types: the index of the alternative, then its value. -/
def sum (pa : Packer α) (pb : Packer β) : Packer (α ⊕ β) where
  pack
    | .inl a => varintBytes 0 ++ pa.pack a
    | .inr b => varintBytes 1 ++ pb.pack b
  unpack bs := (readVarint bs).bind fun x =>
    match x.1 with
    | 0 => (pa.unpack x.2).map (Prod.map Sum.inl id)
    | 1 => (pb.unpack x.2).map (Prod.map Sum.inr id)
    | _ => none
  unpack_pack x rest := by
    cases x with
    | inl a =>
      rw [List.append_assoc, readVarint_varintBytes, Option.bind_some]
      dsimp only
      rw [pa.unpack_pack, Option.map_some]
      rfl
    | inr b =>
      rw [List.append_assoc, readVarint_varintBytes, Option.bind_some]
      dsimp only
      rw [pb.unpack_pack, Option.map_some]
      rfl

@[simp] theorem size_sum_inl (pa : Packer α) (pb : Packer β) (a : α) :
    (pa.sum pb).size (.inl a) = 1 + pa.size a := by
  simp only [size, sum, List.length_append, length_varintBytes_of_lt (show 0 < 128 by omega)]

@[simp] theorem size_sum_inr (pa : Packer α) (pb : Packer β) (b : β) :
    (pa.sum pb).size (.inr b) = 1 + pb.size b := by
  simp only [size, sum, List.length_append, length_varintBytes_of_lt (show 1 < 128 by omega)]

end Packer

end RawPack
