import Mathlib

/-!
# Sorted maps

A finite map kept as its entries in strictly increasing key order, the way an ordered container
or a sorted key-value store presents itself to an iterator. Besides lookup, assignment (`upsert`,
as `m[k] = v` does) and insertion (which, as `std::map::insert` does, leaves an existing entry
alone), a sorted map is navigated by key:
the first key at or above a bound (a `lower_bound`), the first key above it (the entry after)
and the last key below it (the entry before).

Each navigation has one specification: the key it returns is a key of the map on the right side
of the bound, and every key of the map on that side is at least as far from the bound
(`firstGe_eq_some`, `firstGt_eq_some`, `lastLt_eq_some`); it returns `none` exactly when no key
lies on that side. All three rest on one fact about `List.find?` on a sorted list
(`find?_eq_some_iff_of_pairwise`).
-/

namespace List

variable {α : Type*} {r : α → α → Prop}

/-- On a list sorted by an asymmetric `r`, the first element satisfying a predicate is the
`r`-least element satisfying it. -/
theorem find?_eq_some_iff_of_pairwise {l : List α} (hl : l.Pairwise r)
    (hasymm : ∀ a b, r a b → ¬ r b a) {p : α → Bool} {x : α} :
    l.find? p = some x ↔ x ∈ l ∧ p x ∧ ∀ y ∈ l, p y → y = x ∨ r x y := by
  induction l with
  | nil => simp
  | cons a l ih =>
    obtain ⟨ha, hl⟩ := List.pairwise_cons.mp hl
    by_cases hpa : p a
    · -- the head is found, and it is `r`-below every other element
      rw [List.find?_cons_of_pos hpa, Option.some.injEq]
      constructor
      · rintro rfl
        exact ⟨List.mem_cons_self, hpa, fun y hy _ =>
          (List.mem_cons.mp hy).imp id (fun hyl => ha y hyl)⟩
      · rintro ⟨hx, hpx, hleast⟩
        rcases hleast a List.mem_cons_self hpa with h | h
        · exact h
        · rcases List.mem_cons.mp hx with rfl | hxl
          · rfl
          · exact absurd (ha x hxl) (hasymm x a h)
    · -- the head fails, so nothing before the found element satisfies the predicate
      rw [List.find?_cons_of_neg hpa, ih hl]
      constructor
      · rintro ⟨hx, hpx, hleast⟩
        refine ⟨List.mem_cons_of_mem a hx, hpx, fun y hy hpy => ?_⟩
        rcases List.mem_cons.mp hy with rfl | hyl
        · exact absurd hpy hpa
        · exact hleast y hyl hpy
      · rintro ⟨hx, hpx, hleast⟩
        rcases List.mem_cons.mp hx with rfl | hxl
        · exact absurd hpx hpa
        · exact ⟨hxl, hpx, fun y hy hpy => hleast y (List.mem_cons_of_mem a hy) hpy⟩

end List

/-- Entries in strictly increasing key order. -/
structure SortedMap (κ ν : Type*) [LinearOrder κ] where
  entries : List (κ × ν)
  sorted : (entries.map Prod.fst).Pairwise (· < ·)

namespace SortedMap

variable {κ ν : Type*} [LinearOrder κ] (m : SortedMap κ ν)

/-- The keys, in increasing order. -/
def keys : List κ := m.entries.map Prod.fst

/-- The value of a key. -/
def find? (k : κ) : Option ν := (m.entries.find? (·.1 = k)).map (·.2)

/-- The first key at or above `k`. -/
def firstGe (k : κ) : Option κ := m.keys.find? (k ≤ ·)

/-- The first key above `k`. -/
def firstGt (k : κ) : Option κ := m.keys.find? (k < ·)

/-- The last key below `k`. -/
def lastLt (k : κ) : Option κ := m.keys.reverse.find? (· < k)

/-- The map with no entry. -/
def empty : SortedMap κ ν := ⟨[], List.Pairwise.nil⟩

/-- Assignment into sorted entries: the entry of the key is replaced, or added in its place. -/
def upsertEntries (k : κ) (v : ν) : List (κ × ν) → List (κ × ν)
  | [] => [(k, v)]
  | e :: es =>
    if k < e.1 then (k, v) :: e :: es
    else if k = e.1 then (k, v) :: es
    else e :: upsertEntries k v es

theorem mem_keys_upsertEntries {k x : κ} {v : ν} {es : List (κ × ν)} :
    x ∈ (upsertEntries k v es).map Prod.fst ↔ x = k ∨ x ∈ es.map Prod.fst := by
  induction es with
  | nil => simp [upsertEntries]
  | cons e es ih =>
    unfold upsertEntries
    split
    · simp
    · split
      · next h =>
        subst h
        simp
      · simp only [List.map_cons, List.mem_cons, ih]
        exact or_left_comm

theorem sorted_upsertEntries (k : κ) (v : ν) {es : List (κ × ν)}
    (h : (es.map Prod.fst).Pairwise (· < ·)) :
    ((upsertEntries k v es).map Prod.fst).Pairwise (· < ·) := by
  induction es with
  | nil => simp [upsertEntries]
  | cons e es ih =>
    obtain ⟨he, hes⟩ := List.pairwise_cons.mp h
    unfold upsertEntries
    split
    · next hlt =>
      -- the new key goes first: it is below `e.1`, which is below the rest
      refine List.pairwise_cons.mpr ⟨?_, h⟩
      intro x hx
      rcases List.mem_cons.mp hx with rfl | hx
      · exact hlt
      · exact hlt.trans (he x hx)
    · split
      · next heq =>
        -- the new entry takes `e`'s place, under the same key
        subst heq
        exact List.pairwise_cons.mpr ⟨he, hes⟩
      · next hlt hne =>
        -- the new key goes after `e`, which is below it
        refine List.pairwise_cons.mpr ⟨fun x hx => ?_, ih hes⟩
        rcases mem_keys_upsertEntries.mp hx with rfl | hx
        · exact lt_of_le_of_ne (not_lt.mp hlt) (Ne.symm hne)
        · exact he x hx

theorem find?_upsertEntries {k x : κ} {v : ν} {es : List (κ × ν)} :
    ((upsertEntries k v es).find? (·.1 = x)).map (·.2) =
      if x = k then some v else ((es.find? (·.1 = x)).map (·.2)) := by
  induction es with
  | nil =>
    simp only [upsertEntries, List.find?_cons, List.find?_nil]
    by_cases hx : k = x
    · simp [hx]
    · simp [hx, Ne.symm hx]
  | cons e es ih =>
    unfold upsertEntries
    split
    · by_cases hx : x = k
      · subst hx
        simp
      · simp [List.find?_cons, Ne.symm hx, hx]
    · split
      · next heq =>
        -- the entry of `e` is replaced
        by_cases hx : x = k
        · subst hx
          simp
        · have hex : e.1 ≠ x := fun h => hx (h.symm.trans heq.symm)
          simp [hx, Ne.symm hx, hex]
      · next hne =>
        by_cases hex : e.1 = x
        · have hxk : x ≠ k := fun hxk => hne (hxk ▸ hex.symm)
          simp [hex, hxk]
        · simp only [List.find?_cons, hex, decide_false]
          exact ih

/-- `m[k] = v`: the entry of `k` is `v`, whether or not `k` had one. -/
def upsert (k : κ) (v : ν) : SortedMap κ ν :=
  ⟨upsertEntries k v m.entries, sorted_upsertEntries k v m.sorted⟩

theorem mem_keys_upsert {k x : κ} {v : ν} : x ∈ (m.upsert k v).keys ↔ x = k ∨ x ∈ m.keys :=
  mem_keys_upsertEntries

theorem find?_upsert {k x : κ} {v : ν} :
    (m.upsert k v).find? x = if x = k then some v else m.find? x :=
  find?_upsertEntries

/-- `insert(k, v)`: the entry, unless `k` has one. -/
def insert (k : κ) (v : ν) : SortedMap κ ν :=
  if k ∈ m.keys then m else m.upsert k v

theorem mem_keys_insert {k x : κ} {v : ν} : x ∈ (m.insert k v).keys ↔ x = k ∨ x ∈ m.keys := by
  unfold insert
  split
  · next hk =>
    exact ⟨.inr, fun h => h.elim (fun h => h ▸ hk) id⟩
  · exact mem_keys_upsert m

/-- Inserting at a key that has an entry changes nothing. -/
theorem insert_of_mem {k : κ} {v : ν} (h : k ∈ m.keys) : m.insert k v = m :=
  if_pos h

theorem find?_insert_of_not_mem {k x : κ} {v : ν} (h : k ∉ m.keys) :
    (m.insert k v).find? x = if x = k then some v else m.find? x := by
  rw [insert, if_neg h]
  exact find?_upsert m

/-- `erase(k)`: the map without the entry of `k`. -/
def erase (k : κ) : SortedMap κ ν :=
  ⟨m.entries.filter (·.1 ≠ k), m.sorted.sublist (List.filter_sublist.map Prod.fst)⟩

theorem mem_keys_erase {k x : κ} : x ∈ (m.erase k).keys ↔ x ≠ k ∧ x ∈ m.keys := by
  simp only [erase, keys, List.mem_map, List.mem_filter, decide_eq_true_eq]
  constructor
  · rintro ⟨e, ⟨he, hne⟩, rfl⟩
    exact ⟨hne, e, he, rfl⟩
  · rintro ⟨hne, e, he, rfl⟩
    exact ⟨e, ⟨he, hne⟩, rfl⟩

theorem find?_erase {k x : κ} : (m.erase k).find? x = if x = k then none else m.find? x := by
  simp only [erase, find?, List.find?_filter]
  split
  · next hx =>
    -- no entry passes both tests
    subst hx
    rw [List.find?_eq_none.mpr]
    · rfl
    · intro e _
      simp only [decide_eq_true_eq, not_and]
      exact fun hne heq => hne heq
  · next hx =>
    -- for another key the first test follows from the second
    congr 2
    funext e
    by_cases he : e.1 = x
    · simp [he, hx]
    · simp [he]

theorem mem_keys_iff_find?_isSome {k : κ} : k ∈ m.keys ↔ (m.find? k).isSome := by
  unfold keys find?
  rw [Option.isSome_map, List.find?_isSome]
  simp

/-! ### Navigation -/

/-- The keys increase strictly. -/
theorem keys_sorted : m.keys.Pairwise (· < ·) := m.sorted

theorem firstGe_eq_some {k x : κ} :
    m.firstGe k = some x ↔ x ∈ m.keys ∧ k ≤ x ∧ ∀ y ∈ m.keys, k ≤ y → x ≤ y := by
  unfold firstGe
  rw [List.find?_eq_some_iff_of_pairwise m.keys_sorted (fun a b h => not_lt.mpr h.le)]
  simp only [decide_eq_true_eq]
  refine and_congr_right fun _ => and_congr_right fun _ => forall₂_congr fun y _ => ?_
  exact imp_congr_right fun _ => ⟨fun h => h.elim (fun h => h.ge) le_of_lt, fun h =>
    (eq_or_lt_of_le h).elim (fun h => .inl h.symm) .inr⟩

theorem firstGe_eq_none {k : κ} : m.firstGe k = none ↔ ∀ y ∈ m.keys, y < k := by
  unfold firstGe
  rw [List.find?_eq_none]
  simp

theorem firstGt_eq_some {k x : κ} :
    m.firstGt k = some x ↔ x ∈ m.keys ∧ k < x ∧ ∀ y ∈ m.keys, k < y → x ≤ y := by
  unfold firstGt
  rw [List.find?_eq_some_iff_of_pairwise m.keys_sorted (fun a b h => not_lt.mpr h.le)]
  simp only [decide_eq_true_eq]
  refine and_congr_right fun _ => and_congr_right fun _ => forall₂_congr fun y _ => ?_
  exact imp_congr_right fun _ => ⟨fun h => h.elim (fun h => h.ge) le_of_lt, fun h =>
    (eq_or_lt_of_le h).elim (fun h => .inl h.symm) .inr⟩

theorem firstGt_eq_none {k : κ} : m.firstGt k = none ↔ ∀ y ∈ m.keys, y ≤ k := by
  unfold firstGt
  rw [List.find?_eq_none]
  simp

theorem lastLt_eq_some {k x : κ} :
    m.lastLt k = some x ↔ x ∈ m.keys ∧ x < k ∧ ∀ y ∈ m.keys, y < k → y ≤ x := by
  unfold lastLt
  have hrev : m.keys.reverse.Pairwise (· > ·) := List.pairwise_reverse.mpr m.keys_sorted
  rw [List.find?_eq_some_iff_of_pairwise hrev (fun a b h => not_lt.mpr h.le), List.mem_reverse]
  simp only [decide_eq_true_eq, List.mem_reverse]
  refine and_congr_right fun _ => and_congr_right fun _ => forall₂_congr fun y _ => ?_
  exact imp_congr_right fun _ => ⟨fun h => h.elim (fun h => h.le) le_of_lt, fun h =>
    (eq_or_lt_of_le h).elim .inl .inr⟩

theorem lastLt_eq_none {k : κ} : m.lastLt k = none ↔ ∀ y ∈ m.keys, k ≤ y := by
  unfold lastLt
  rw [List.find?_eq_none]
  simp

/-- The last key is the greatest. -/
theorem getLast?_keys_eq_some {x : κ} :
    m.keys.getLast? = some x ↔ x ∈ m.keys ∧ ∀ y ∈ m.keys, y ≤ x := by
  -- the last key is above the keys before it
  have hlast : ∀ {l : κ}, m.keys.getLast? = some l → l ∈ m.keys ∧ ∀ y ∈ m.keys, y ≤ l := by
    intro l hl
    obtain ⟨ys, hys⟩ := List.getLast?_eq_some_iff.mp hl
    have hsorted := m.keys_sorted
    rw [hys, List.pairwise_append] at hsorted
    refine ⟨hys ▸ List.mem_append_right ys (List.mem_singleton_self l), fun y hy => ?_⟩
    rw [hys, List.mem_append, List.mem_singleton] at hy
    rcases hy with hy | rfl
    · exact (hsorted.2.2 y hy l (List.mem_singleton_self l)).le
    · exact le_rfl
  refine ⟨hlast, fun ⟨hx, hmax⟩ => ?_⟩
  obtain ⟨l, hl⟩ := Option.isSome_iff_exists.mp
    (List.getLast?_isSome.mpr (List.ne_nil_of_mem hx))
  obtain ⟨hlmem, hlmax⟩ := hlast hl
  rw [hl, le_antisymm (hmax l hlmem) (hlmax x hx)]

/-- The first key that satisfies `p`: a `std::map::upper_bound` with a comparator, where `p`
holds from some key on. -/
def firstWhere (p : κ → Bool) : Option κ := m.keys.find? p

/-- `--it` of a position of the map: the key before a key, or the last key before the end;
`none` at the first key. -/
def lastBefore : Option κ → Option κ
  | some k => m.lastLt k
  | none => m.keys.getLast?

section UpperBound

variable {p : κ → Bool} (hp : ∀ a b, p a → a ≤ b → p b)
include hp

/-- For a `p` that holds from some key on, the keys before the first key satisfying it are those
that do not. -/
theorem lt_of_firstWhere_eq_some {K y : κ} (hK : m.firstWhere p = some K) (hy : y ∈ m.keys) :
    y < K ↔ p y = false := by
  unfold firstWhere at hK
  rw [List.find?_eq_some_iff_of_pairwise m.keys_sorted (fun a b h => not_lt.mpr h.le)] at hK
  obtain ⟨-, hpK, hleast⟩ := hK
  constructor
  · intro hyK
    refine Bool.eq_false_iff.mpr fun hpy => ?_
    rcases hleast y hy hpy with rfl | hKy
    · exact lt_irrefl y hyK
    · exact lt_asymm hyK hKy
  · intro hpy
    refine not_le.mp fun hKy => ?_
    rw [hp K y hpK hKy] at hpy
    exact Bool.noConfusion hpy

/-- **`upper_bound`, then `--`**: the greatest key that does not satisfy `p`. -/
theorem lastBefore_firstWhere_eq_some {x : κ} :
    m.lastBefore (m.firstWhere p) = some x ↔
      x ∈ m.keys ∧ p x = false ∧ ∀ y ∈ m.keys, p y = false → y ≤ x := by
  cases hK : m.firstWhere p with
  | some K =>
    rw [lastBefore, lastLt_eq_some]
    constructor
    · rintro ⟨hx, hxK, hmax⟩
      exact ⟨hx, (lt_of_firstWhere_eq_some m hp hK hx).mp hxK,
        fun y hy hpy => hmax y hy ((lt_of_firstWhere_eq_some m hp hK hy).mpr hpy)⟩
    · rintro ⟨hx, hpx, hmax⟩
      exact ⟨hx, (lt_of_firstWhere_eq_some m hp hK hx).mpr hpx,
        fun y hy hyK => hmax y hy ((lt_of_firstWhere_eq_some m hp hK hy).mp hyK)⟩
  | none =>
    -- no key satisfies `p`: the position is the end, and the key before it the last one
    have hnone : ∀ y ∈ m.keys, p y = false := by
      intro y hy
      have := List.find?_eq_none.mp hK y hy
      simpa using this
    rw [lastBefore, getLast?_keys_eq_some]
    exact ⟨fun ⟨hx, hmax⟩ => ⟨hx, hnone x hx, fun y hy _ => hmax y hy⟩,
      fun ⟨hx, _, hmax⟩ => ⟨hx, fun y hy => hmax y hy (hnone y hy)⟩⟩

theorem lastBefore_firstWhere_eq_none :
    m.lastBefore (m.firstWhere p) = none ↔ ∀ y ∈ m.keys, p y = true := by
  cases hK : m.firstWhere p with
  | some K =>
    rw [lastBefore, lastLt_eq_none]
    refine forall₂_congr fun y hy => ?_
    rw [← not_lt, lt_of_firstWhere_eq_some m hp hK hy, Bool.not_eq_false]
  | none =>
    rw [lastBefore, List.getLast?_eq_none_iff]
    constructor
    · rintro hnil y hy
      rw [hnil] at hy
      exact absurd hy List.not_mem_nil
    · intro hall
      refine List.eq_nil_iff_forall_not_mem.mpr fun y hy => ?_
      have := List.find?_eq_none.mp hK y hy
      rw [hall y hy] at this
      exact this rfl

end UpperBound

/-! ### Navigation within a range without gaps

An iterator over a range of an ordered container (the keys with a given prefix, say) navigates
the whole container and checks that the key it reaches is in the range. When the range has no
gaps (`Set.OrdConnected`) and the search starts from within it, the key reached is in the range
exactly when the range has a key on that side of the bound, and it is then the nearest one. -/

/-- The key a search finds is the nearest key on its side of the bound among any set of keys it
belongs to. -/
theorem firstGe_isLeast {Q : Set κ} {x K : κ} (hK : m.firstGe x = some K) (hKQ : K ∈ Q) :
    IsLeast {y | y ∈ m.keys ∧ y ∈ Q ∧ x ≤ y} K := by
  obtain ⟨hmem, hxK, hleast⟩ := (firstGe_eq_some m).mp hK
  exact ⟨⟨hmem, hKQ, hxK⟩, fun y ⟨hy, _, hxy⟩ => hleast y hy hxy⟩

theorem firstGt_isLeast {Q : Set κ} {x K : κ} (hK : m.firstGt x = some K) (hKQ : K ∈ Q) :
    IsLeast {y | y ∈ m.keys ∧ y ∈ Q ∧ x < y} K := by
  obtain ⟨hmem, hxK, hleast⟩ := (firstGt_eq_some m).mp hK
  exact ⟨⟨hmem, hKQ, hxK⟩, fun y ⟨hy, _, hxy⟩ => hleast y hy hxy⟩

theorem lastLt_isGreatest {Q : Set κ} {x K : κ} (hK : m.lastLt x = some K) (hKQ : K ∈ Q) :
    IsGreatest {y | y ∈ m.keys ∧ y ∈ Q ∧ y < x} K := by
  obtain ⟨hmem, hKx, hgreatest⟩ := (lastLt_eq_some m).mp hK
  exact ⟨⟨hmem, hKQ, hKx⟩, fun y ⟨hy, _, hyx⟩ => hgreatest y hy hyx⟩

section OrdConnected

variable {P : Set κ} (hP : P.OrdConnected)
include hP

/-- Searching up from a bound at or above a key `a` of the range, a key of the range that the
search passes over keeps the key found in the range. -/
theorem firstGe_mem_of_ordConnected {a x K y : κ} (ha : a ∈ P) (hax : a ≤ x)
    (hK : m.firstGe x = some K) (hy : y ∈ m.keys) (hyP : y ∈ P) (hxy : x ≤ y) : K ∈ P := by
  obtain ⟨-, hxK, hleast⟩ := (firstGe_eq_some m).mp hK
  exact hP.out ha hyP ⟨hax.trans hxK, hleast y hy hxy⟩

theorem firstGt_mem_of_ordConnected {x K y : κ} (hx : x ∈ P) (hK : m.firstGt x = some K)
    (hy : y ∈ m.keys) (hyP : y ∈ P) (hxy : x < y) : K ∈ P := by
  obtain ⟨-, hxK, hleast⟩ := (firstGt_eq_some m).mp hK
  exact hP.out hx hyP ⟨hxK.le, hleast y hy hxy⟩

theorem lastLt_mem_of_ordConnected {x K y : κ} (hx : x ∈ P) (hK : m.lastLt x = some K)
    (hy : y ∈ m.keys) (hyP : y ∈ P) (hyx : y < x) : K ∈ P := by
  obtain ⟨-, hKx, hgreatest⟩ := (lastLt_eq_some m).mp hK
  exact hP.out hyP hx ⟨hgreatest y hy hyx, hKx.le⟩

end OrdConnected

/-- A key has a first key at or above it when the map has a key there. -/
theorem isSome_firstGe {k : κ} : (m.firstGe k).isSome ↔ ∃ y ∈ m.keys, k ≤ y := by
  rw [← Option.ne_none_iff_isSome, Ne, firstGe_eq_none]
  simp only [not_forall, not_lt, exists_prop]

theorem isSome_firstGt {k : κ} : (m.firstGt k).isSome ↔ ∃ y ∈ m.keys, k < y := by
  rw [← Option.ne_none_iff_isSome, Ne, firstGt_eq_none]
  simp only [not_forall, not_le, exists_prop]

theorem isSome_lastLt {k : κ} : (m.lastLt k).isSome ↔ ∃ y ∈ m.keys, y < k := by
  rw [← Option.ne_none_iff_isSome, Ne, lastLt_eq_none]
  simp only [not_forall, not_le, exists_prop]

end SortedMap
