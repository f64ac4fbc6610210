import Mathlib
import TaurusNode.Chain.RamAccounting

/-!
# Tables exist exactly while they hold objects

A `table_id_object` keeps in its `uint32_t` `count` the number of objects of its table, the
rows of the primary index and the objects of the secondary indices together. A store adds one
(`modify(count + 1)`), a remove takes one away, and the remove that takes the count to zero
removes the table (`remove_table`).

`TablesCounted` says that the counts are exact, that every table has an object, and that every
object has its table. Every call keeps it while the tables hold fewer than `2^32` objects
(`call_tablesCounted`). The stores and the removes go through three steps: `find_or_create_table`
may add a table with no object yet, which `TablesCountedExcept` allows for one table; one object
more or fewer with its count moved (`TablesCountedExcept.succ`, `TablesCounted.pred`); and the
removal of an emptied table (`TablesCountedExcept.removeTableIfEmpty`).

## Main results

* `run_ramConserved`: **along every run of calls, the net RAM delta of every account is the
  change of its footprint, the count of every table is the number of its objects, and a table
  exists exactly while it has objects**, under two bounds: the limits of the key-value store
  add up to less than `2^32`, and the storage holds fewer than `2^32` objects.
* `run_kvSet_wrap`: without the first bound the billing goes wrong. With a one-byte key and a
  value of `2^32 - 1` bytes, shrinking the value bills `+1` since `update_table_usage` sees the
  old size wrap to `0`, and after the row is erased its payer is left charged `2^32` bytes.
-/

namespace Eosio.Chain

namespace ContractTables

/-- The objects of table `tId`: its rows and the objects of its secondary indices. -/
def rowCount (db : ContractTables) (tId : ℕ) : ℕ :=
  db.rows.countP (·.tId = tId) + db.secondaryRows.countP (·.tId = tId)

/-- The counts are exact, every table has an object, and every object has its table. -/
structure TablesCounted (db : ContractTables) : Prop where
  count_eq : ∀ t ∈ db.tables, t.count.toNat = db.rowCount t.id
  count_pos : ∀ t ∈ db.tables, 0 < db.rowCount t.id
  rows_tabled : ∀ r ∈ db.rows, r.tId ∈ db.tables.map TableIdObject.id
  secondaryRows_tabled : ∀ r ∈ db.secondaryRows, r.tId ∈ db.tables.map TableIdObject.id

/-- `TablesCounted`, except that table `k` may have no object. -/
structure TablesCountedExcept (db : ContractTables) (k : ℕ) : Prop where
  count_eq : ∀ t ∈ db.tables, t.count.toNat = db.rowCount t.id
  count_pos : ∀ t ∈ db.tables, t.id ≠ k → 0 < db.rowCount t.id
  rows_tabled : ∀ r ∈ db.rows, r.tId ∈ db.tables.map TableIdObject.id
  secondaryRows_tabled : ∀ r ∈ db.secondaryRows, r.tId ∈ db.tables.map TableIdObject.id

variable {db db' : ContractTables}

/-- **A table exists exactly while it has objects.** -/
theorem TablesCounted.mem_iff (hc : db.TablesCounted) (tId : ℕ) :
    tId ∈ db.tables.map TableIdObject.id ↔ 0 < db.rowCount tId := by
  constructor
  · intro hmem
    obtain ⟨t, ht, rfl⟩ := List.mem_map.mp hmem
    exact hc.count_pos t ht
  · intro hpos
    -- an object of the table has its table
    rcases Nat.add_pos_iff_pos_or_pos.mp hpos with hrows | hsecondary
    · obtain ⟨r, hr, hid⟩ := List.countP_pos_iff.mp hrows
      simpa [of_decide_eq_true hid] using hc.rows_tabled r hr
    · obtain ⟨r, hr, hid⟩ := List.countP_pos_iff.mp hsecondary
      simpa [of_decide_eq_true hid] using hc.secondaryRows_tabled r hr

theorem TablesCounted.except (hc : db.TablesCounted) (k : ℕ) : db.TablesCountedExcept k :=
  ⟨hc.count_eq, fun t ht _ => hc.count_pos t ht, hc.rows_tabled, hc.secondaryRows_tabled⟩

/-- A table whose id has no object has none of the rows: they all have their table. -/
theorem rowCount_eq_zero_of_not_mem (hrows : ∀ r ∈ db.rows, r.tId ∈ db.tables.map TableIdObject.id)
    (hsecondary : ∀ r ∈ db.secondaryRows, r.tId ∈ db.tables.map TableIdObject.id) {tId : ℕ}
    (htId : tId ∉ db.tables.map TableIdObject.id) : db.rowCount tId = 0 := by
  simp only [rowCount, Nat.add_eq_zero_iff, List.countP_eq_zero, decide_eq_true_eq]
  exact ⟨fun r hr hid => htId (hid ▸ hrows r hr), fun r hr hid => htId (hid ▸ hsecondary r hr)⟩

section Operations

@[simp] theorem rowCount_updateDbUsage (payer : Name) (delta : ℤ) :
    (db.updateDbUsage payer delta).rowCount = db.rowCount := rfl

@[simp] theorem rowCount_modifyCount (tId : ℕ) (f : UInt32 → UInt32) :
    (db.modifyCount tId f).rowCount = db.rowCount := rfl

theorem TablesCounted.updateDbUsage (hc : db.TablesCounted) (payer : Name) (delta : ℤ) :
    (db.updateDbUsage payer delta).TablesCounted :=
  ⟨hc.count_eq, hc.count_pos, hc.rows_tabled, hc.secondaryRows_tabled⟩

/-- The objects of a table in the tables of `modifyCount`: the one with the id changed, the
others as they were. -/
theorem mem_modifyCount_tables_iff {tId : ℕ} {f : UInt32 → UInt32} {t : TableIdObject} :
    t ∈ (db.modifyCount tId f).tables ↔
      ∃ t₀ ∈ db.tables, t = if t₀.id = tId then { t₀ with count := f t₀.count } else t₀ := by
  simp only [modifyCount, List.mem_map]
  exact exists_congr fun t₀ => and_congr_right fun _ => eq_comm

/-- A table found keeps the invariant; a table created is the one table that may have no
object, its id being fresh. -/
theorem TablesCounted.findOrCreateTable (hwf : db.WF) (hc : db.TablesCounted)
    (code scope table payer : Name) :
    (db.findOrCreateTable code scope table payer).1.TablesCountedExcept
      (db.findOrCreateTable code scope table payer).2.id := by
  rcases db.findOrCreateTable_cases code scope table payer with ⟨t, -, -, -, -, h⟩ | h
  · rw [h]
    exact hc.except t.id
  · rw [h]
    have hfresh : db.nextTableId ∉ db.tables.map TableIdObject.id := fun hmem => by
      obtain ⟨t, ht, hid⟩ := List.mem_map.mp hmem
      exact absurd (hwf.tableId_lt t ht) (by omega)
    have hzero := rowCount_eq_zero_of_not_mem hc.rows_tabled hc.secondaryRows_tabled hfresh
    refine ⟨fun t ht => ?_, fun t ht hne => ?_, fun r hr => ?_, fun r hr => ?_⟩
    · rcases List.mem_append.mp ht with ht | ht
      · exact hc.count_eq t ht
      · rw [List.mem_singleton.mp ht]
        exact hzero.symm
    · rcases List.mem_append.mp ht with ht | ht
      · exact hc.count_pos t ht
      · exact absurd (by rw [List.mem_singleton.mp ht]) hne
    · simp only [List.map_append, List.mem_append]
      exact .inl (hc.rows_tabled r hr)
    · simp only [List.map_append, List.mem_append]
      exact .inl (hc.secondaryRows_tabled r hr)

/-- **One object more in table `k`**, counted by `modify(count + 1)`: the table is counted again,
and the count does not wrap below `2^32` objects. -/
theorem TablesCountedExcept.succ {db₁ db₂ : ContractTables} {k : ℕ}
    (hc : db₁.TablesCountedExcept k) (htables : db₂.tables = (db₁.modifyCount k (· + 1)).tables)
    (hrows : ∀ tId, db₂.rowCount tId = db₁.rowCount tId + if k = tId then 1 else 0)
    (hrows_tabled : ∀ r ∈ db₂.rows, r.tId ∈ db₁.tables.map TableIdObject.id)
    (hsecondary_tabled : ∀ r ∈ db₂.secondaryRows, r.tId ∈ db₁.tables.map TableIdObject.id)
    (hbound : db₁.rowCount k + 1 < 2 ^ 32) : db₂.TablesCounted := by
  have hids : db₂.tables.map TableIdObject.id = db₁.tables.map TableIdObject.id := by
    rw [htables, modifyCount_tables_map_id]
  refine ⟨fun t ht => ?_, fun t ht => ?_, fun r hr => hids ▸ hrows_tabled r hr,
    fun r hr => hids ▸ hsecondary_tabled r hr⟩
  · rw [htables, mem_modifyCount_tables_iff] at ht
    obtain ⟨t₀, ht₀, rfl⟩ := ht
    have hcount := hc.count_eq t₀ ht₀
    by_cases hk : t₀.id = k
    · -- the table of the new object: its count and its objects both grow by one
      rw [if_pos hk]
      simp only [hrows, UInt32.toNat_add, if_pos hk.symm]
      rw [← hk] at hbound
      simp only [UInt32.toNat_one]
      omega
    · rw [if_neg hk, hrows, if_neg (Ne.symm hk), add_zero]
      exact hcount
  · rw [htables, mem_modifyCount_tables_iff] at ht
    obtain ⟨t₀, ht₀, rfl⟩ := ht
    by_cases hk : t₀.id = k
    · rw [if_pos hk, hrows, if_pos hk.symm]
      exact Nat.succ_pos _
    · rw [if_neg hk, hrows, if_neg (Ne.symm hk), add_zero]
      exact hc.count_pos t₀ ht₀ hk

/-- **One object fewer in table `k`**, counted by `modify(count - 1)`: every count is exact again,
and only table `k` may be left with no object. -/
theorem TablesCounted.pred {db₁ db₂ : ContractTables} {k : ℕ} (hc : db₁.TablesCounted)
    (htables : db₂.tables = (db₁.modifyCount k (· - 1)).tables)
    (hrows : ∀ tId, db₂.rowCount tId + (if k = tId then 1 else 0) = db₁.rowCount tId)
    (hrows_sub : ∀ r ∈ db₂.rows, r ∈ db₁.rows)
    (hsecondary_sub : ∀ r ∈ db₂.secondaryRows, r ∈ db₁.secondaryRows) :
    db₂.TablesCountedExcept k := by
  have hids : db₂.tables.map TableIdObject.id = db₁.tables.map TableIdObject.id := by
    rw [htables, modifyCount_tables_map_id]
  refine ⟨fun t ht => ?_, fun t ht hne => ?_, fun r hr => hids ▸ hc.rows_tabled r (hrows_sub r hr),
    fun r hr => hids ▸ hc.secondaryRows_tabled r (hsecondary_sub r hr)⟩
  · rw [htables, mem_modifyCount_tables_iff] at ht
    obtain ⟨t₀, ht₀, rfl⟩ := ht
    have hcount := hc.count_eq t₀ ht₀
    have hrow := hrows t₀.id
    by_cases hk : t₀.id = k
    · -- the table of the removed object: its count is positive, and both fall by one
      rw [if_pos hk]
      rw [if_pos hk.symm] at hrow
      have hle : (1 : UInt32) ≤ t₀.count := by
        rw [UInt32.le_iff_toNat_le, UInt32.toNat_one]
        omega
      simp only [UInt32.toNat_sub_of_le _ _ hle, UInt32.toNat_one]
      omega
    · rw [if_neg hk]
      rw [if_neg (Ne.symm hk), add_zero] at hrow
      rw [hrow]
      exact hcount
  · rw [htables, mem_modifyCount_tables_iff] at ht
    obtain ⟨t₀, ht₀, rfl⟩ := ht
    have hk : t₀.id ≠ k := by
      intro hk
      rw [if_pos hk] at hne
      exact hne hk
    have hrow := hrows t₀.id
    rw [if_neg (Ne.symm hk), add_zero] at hrow
    rw [if_neg hk, hrow]
    exact hc.count_pos t₀ ht₀

/-- **The removal of an emptied table** restores the invariant: the table `k` that may have no
object is removed exactly when its count is zero. -/
theorem TablesCountedExcept.removeTableIfEmpty {k : ℕ} (hc : db.TablesCountedExcept k)
    (hnodup : (db.tables.map TableIdObject.id).Nodup) : (db.removeTableIfEmpty k).TablesCounted := by
  rcases db.removeTableIfEmpty_cases k with ⟨hnonzero, h⟩ | ⟨t, ht, hid, hzero, h⟩
  · -- the table `k` kept has a nonzero count, hence an object
    rw [h]
    refine ⟨hc.count_eq, fun t ht => ?_, hc.rows_tabled, hc.secondaryRows_tabled⟩
    by_cases hk : t.id = k
    · have hcount := hnonzero t ((db.getTable_eq_some_iff hnodup).mpr ⟨ht, hk⟩)
      rw [← hc.count_eq t ht]
      exact Nat.pos_of_ne_zero fun h0 => hcount (UInt32.toNat_inj.mp (by simpa using h0))
    · exact hc.count_pos t ht hk
  · -- the table `k` is removed, and it has no object left
    rw [h]
    have hempty : db.rowCount k = 0 := by
      rw [← hid, ← hc.count_eq t ht, hzero]
      rfl
    have hsub : (db.removeTable t).tables.Sublist db.tables := List.filter_sublist
    -- an object of another table keeps its table
    have htabled : ∀ tId ∈ db.tables.map TableIdObject.id, 0 < db.rowCount tId →
        tId ∈ (db.removeTable t).tables.map TableIdObject.id := by
      intro tId hmem hpos
      obtain ⟨t', ht', rfl⟩ := List.mem_map.mp hmem
      have hne : t'.id ≠ t.id := fun heq => by rw [heq, hid, hempty] at hpos; exact absurd hpos (by omega)
      exact List.mem_map.mpr ⟨t', List.mem_filter.mpr ⟨ht', by simpa using hne⟩, rfl⟩
    refine ⟨fun t' ht' => hc.count_eq t' (hsub.subset ht'), fun t' ht' => ?_, fun r hr => ?_,
      fun r hr => ?_⟩
    · have hne : t'.id ≠ t.id := by simpa using (List.mem_filter.mp ht').2
      exact hc.count_pos t' (hsub.subset ht') (hid ▸ hne)
    · refine htabled r.tId (hc.rows_tabled r hr) ?_
      exact Nat.add_pos_left (List.countP_pos_iff.mpr ⟨r, hr, by simp⟩) _
    · refine htabled r.tId (hc.secondaryRows_tabled r hr) ?_
      exact Nat.add_pos_right _ (List.countP_pos_iff.mpr ⟨r, hr, by simp⟩)

/-- What a table with unchanged rows and objects keeps. -/
theorem TablesCounted.of_eq (hc : db.TablesCounted) (htables : db'.tables = db.tables)
    (hrows : db'.rows = db.rows) (hsecondary : db'.secondaryRows = db.secondaryRows) :
    db'.TablesCounted := by
  have hcount : db'.rowCount = db.rowCount := by
    ext tId
    rw [rowCount, rowCount, hrows, hsecondary]
  refine ⟨?_, ?_, ?_, ?_⟩
  · rw [htables, hcount]
    exact hc.count_eq
  · rw [htables, hcount]
    exact hc.count_pos
  · rw [htables, hrows]
    exact hc.rows_tabled
  · rw [htables, hsecondary]
    exact hc.secondaryRows_tabled

end Operations

/-- The objects of the storage: rows and objects of secondary indices. -/
def objectCount (db : ContractTables) : ℕ :=
  db.rows.length + db.secondaryRows.length

/-- The storage before any contract has written to it. -/
def empty : ContractTables := ⟨[], 0, [], [], [], fun _ => 0⟩

theorem wf_empty : empty.WF :=
  ⟨List.nodup_nil, nofun, List.nodup_nil, List.nodup_nil, List.nodup_nil, nofun⟩

theorem tablesCounted_empty : empty.TablesCounted :=
  ⟨nofun, nofun, nofun, nofun⟩

theorem rowCount_le_objectCount (tId : ℕ) : db.rowCount tId ≤ db.objectCount :=
  Nat.add_le_add List.countP_le_length List.countP_le_length

/-! ### Each call keeps the counts

Each call adds at most one object, and keeps `TablesCounted` while the objects stay below
`2^32`. -/

section Calls

variable (receiver : Name)

theorem TablesCounted.dbStoreI64 (hwf : db.WF) (hc : db.TablesCounted)
    (hbound : db.objectCount + 1 < 2 ^ 32) {scope table payer : Name} {id : UInt64}
    {buffer : List UInt8} (h : db.dbStoreI64 receiver scope table payer id buffer = some db') :
    db'.TablesCounted ∧ db'.objectCount ≤ db.objectCount + 1 := by
  rcases hfc : db.findOrCreateTable receiver scope table payer with ⟨db₁, tab⟩
  have hc₁ : db₁.TablesCountedExcept tab.id := by
    simpa [hfc] using hc.findOrCreateTable hwf receiver scope table payer
  have htab : tab ∈ db₁.tables := by simpa [hfc] using db.findOrCreateTable_mem receiver scope table payer
  have hrows₁ : db₁.rows = db.rows := by simpa [hfc] using db.findOrCreateTable_rows receiver scope table payer
  have hsecondary₁ : db₁.secondaryRows = db.secondaryRows := by
    simpa [hfc] using db.findOrCreateTable_secondaryRows receiver scope table payer
  have hcount₁ : db₁.rowCount tab.id ≤ db.objectCount := by
    simpa [objectCount, hrows₁, hsecondary₁] using @rowCount_le_objectCount db₁ tab.id
  obtain ⟨-, -, rfl⟩ := db.dbStoreI64_eq_some receiver hfc h
  refine ⟨?_, by simp [objectCount, hrows₁, hsecondary₁]; omega⟩
  apply TablesCounted.updateDbUsage
  refine hc₁.succ rfl (fun tId => ?_) (fun r hr => ?_) hc₁.secondaryRows_tabled (by omega)
  · -- the new row is an object of table `tab`
    by_cases hk : tab.id = tId
    · simp [rowCount, List.countP_append, hk]
      omega
    · simp [rowCount, List.countP_append, hk]
  · rcases List.mem_append.mp hr with hr | hr
    · exact hc₁.rows_tabled r hr
    · rw [List.mem_singleton.mp hr]
      exact List.mem_map_of_mem htab

theorem TablesCounted.dbUpdateI64 (hc : db.TablesCounted) {tId : ℕ} {primaryKey : UInt64}
    {payer : Name} {buffer : List UInt8}
    (h : db.dbUpdateI64 receiver tId primaryKey payer buffer = some db') :
    db'.TablesCounted ∧ db'.objectCount ≤ db.objectCount + 1 := by
  obtain ⟨obj, -, -, -, rfl⟩ := db.dbUpdateI64_eq_some receiver h
  -- the update keeps the table of the row
  have hupdate := fun tId : ℕ => @KeyedList.countP_map_update _ _ _ KeyValueObject.byScopePrimary
    db.rows obj.byScopePrimary
    (fun r => { r with value := buffer, payer := if payer = Name.empty then obj.payer else payer })
    (fun r => decide (r.tId = tId)) fun _ => rfl
  refine ⟨⟨fun t ht => ?_, fun t ht => ?_, fun r hr => ?_, hc.secondaryRows_tabled⟩, ?_⟩
  · simpa [rowCount, hupdate] using hc.count_eq t ht
  · simpa [rowCount, hupdate] using hc.count_pos t ht
  · obtain ⟨r₀, hr₀, rfl⟩ := List.mem_map.mp hr
    by_cases hkey : r₀.byScopePrimary = obj.byScopePrimary
    · rw [if_pos hkey]
      exact hc.rows_tabled r₀ hr₀
    · rw [if_neg hkey]
      exact hc.rows_tabled r₀ hr₀
  · simp [objectCount]

theorem TablesCounted.dbRemoveI64 (hwf : db.WF) (hc : db.TablesCounted) {tId : ℕ}
    {primaryKey : UInt64} (h : db.dbRemoveI64 receiver tId primaryKey = some db') :
    db'.TablesCounted ∧ db'.objectCount ≤ db.objectCount + 1 := by
  obtain ⟨obj, hobj, -, -, rfl⟩ := db.dbRemoveI64_eq_some receiver h
  refine ⟨TablesCountedExcept.removeTableIfEmpty (hc.pred rfl (fun tId => ?_)
    (fun r hr => (List.mem_filter.mp hr).1) (fun _ hr => hr)) (by simpa using hwf.tableIds_nodup), ?_⟩
  · -- the removed row is an object of its table alone
    have hcount := KeyedList.countP_filter_key_ne KeyValueObject.byScopePrimary hwf.rows_nodup hobj
      (fun r => decide (r.tId = tId))
    simp only [rowCount, modifyCount_secondaryRows, updateDbUsage_secondaryRows]
    by_cases hk : obj.tId = tId
    · simp only [hk, decide_true, if_true] at hcount ⊢
      omega
    · simp only [hk, decide_false, Bool.false_eq_true, if_false] at hcount ⊢
      omega
  · simp only [objectCount, removeTableIfEmpty_rows, removeTableIfEmpty_secondaryRows]
    have := List.length_filter_le (fun r : KeyValueObject => decide (r.byScopePrimary ≠ obj.byScopePrimary)) db.rows
    simp only [modifyCount_secondaryRows, updateDbUsage_secondaryRows]
    omega

theorem TablesCounted.secondaryStore (hwf : db.WF) (hc : db.TablesCounted)
    (hbound : db.objectCount + 1 < 2 ^ 32) {index : SecondaryIndex} {scope table payer : Name}
    {id : UInt64} (h : db.secondaryStore receiver index scope table payer id = some db') :
    db'.TablesCounted ∧ db'.objectCount ≤ db.objectCount + 1 := by
  rcases hfc : db.findOrCreateTable receiver scope table payer with ⟨db₁, tab⟩
  have hc₁ : db₁.TablesCountedExcept tab.id := by
    simpa [hfc] using hc.findOrCreateTable hwf receiver scope table payer
  have htab : tab ∈ db₁.tables := by simpa [hfc] using db.findOrCreateTable_mem receiver scope table payer
  have hrows₁ : db₁.rows = db.rows := by simpa [hfc] using db.findOrCreateTable_rows receiver scope table payer
  have hsecondary₁ : db₁.secondaryRows = db.secondaryRows := by
    simpa [hfc] using db.findOrCreateTable_secondaryRows receiver scope table payer
  have hcount₁ : db₁.rowCount tab.id ≤ db.objectCount := by
    simpa [objectCount, hrows₁, hsecondary₁] using @rowCount_le_objectCount db₁ tab.id
  obtain ⟨-, -, rfl⟩ := db.secondaryStore_eq_some receiver hfc h
  refine ⟨?_, by simp [objectCount, hrows₁, hsecondary₁]; omega⟩
  apply TablesCounted.updateDbUsage
  refine hc₁.succ rfl (fun tId => ?_) hc₁.rows_tabled (fun r hr => ?_) (by omega)
  · -- the new object is an object of table `tab`
    by_cases hk : tab.id = tId
    · simp [rowCount, List.countP_append, hk]
      omega
    · simp [rowCount, List.countP_append, hk]
  · rcases List.mem_append.mp hr with hr | hr
    · exact hc₁.secondaryRows_tabled r hr
    · rw [List.mem_singleton.mp hr]
      exact List.mem_map_of_mem htab

theorem TablesCounted.secondaryUpdate (hc : db.TablesCounted) {index : SecondaryIndex} {tId : ℕ}
    {primaryKey : UInt64} {payer : Name}
    (h : db.secondaryUpdate receiver index tId primaryKey payer = some db') :
    db'.TablesCounted ∧ db'.objectCount ≤ db.objectCount + 1 := by
  obtain ⟨obj, -, -, -, rfl⟩ := db.secondaryUpdate_eq_some receiver h
  -- the update keeps the table of the object
  have hupdate := fun tId : ℕ => @KeyedList.countP_map_update _ _ _ SecondaryObject.byPrimary
    db.secondaryRows obj.byPrimary
    (fun r => { r with payer := if payer = Name.empty then obj.payer else payer })
    (fun r => decide (r.tId = tId)) fun _ => rfl
  refine ⟨⟨fun t ht => ?_, fun t ht => ?_, hc.rows_tabled, fun r hr => ?_⟩, ?_⟩
  · simpa [rowCount, hupdate] using hc.count_eq t ht
  · simpa [rowCount, hupdate] using hc.count_pos t ht
  · obtain ⟨r₀, hr₀, rfl⟩ := List.mem_map.mp hr
    by_cases hkey : r₀.byPrimary = obj.byPrimary
    · rw [if_pos hkey]
      exact hc.secondaryRows_tabled r₀ hr₀
    · rw [if_neg hkey]
      exact hc.secondaryRows_tabled r₀ hr₀
  · simp [objectCount]

theorem TablesCounted.secondaryRemove (hwf : db.WF) (hc : db.TablesCounted)
    {index : SecondaryIndex} {tId : ℕ} {primaryKey : UInt64}
    (h : db.secondaryRemove receiver index tId primaryKey = some db') :
    db'.TablesCounted ∧ db'.objectCount ≤ db.objectCount + 1 := by
  obtain ⟨obj, hobj, -, -, rfl⟩ := db.secondaryRemove_eq_some receiver h
  refine ⟨TablesCountedExcept.removeTableIfEmpty (hc.pred rfl (fun tId => ?_) (fun _ hr => hr)
    (fun r hr => (List.mem_filter.mp hr).1)) (by simpa using hwf.tableIds_nodup), ?_⟩
  · -- the removed object is an object of its table alone
    have hcount := KeyedList.countP_filter_key_ne SecondaryObject.byPrimary hwf.secondaryRows_nodup
      hobj (fun r => decide (r.tId = tId))
    simp only [rowCount, modifyCount_rows, updateDbUsage_rows]
    by_cases hk : obj.tId = tId
    · simp only [hk, decide_true, if_true] at hcount ⊢
      omega
    · simp only [hk, decide_false, Bool.false_eq_true, if_false] at hcount ⊢
      omega
  · simp only [objectCount, removeTableIfEmpty_rows, removeTableIfEmpty_secondaryRows]
    have := List.length_filter_le (fun r : SecondaryObject => decide (r.byPrimary ≠ obj.byPrimary))
      db.secondaryRows
    simp only [modifyCount_rows, updateDbUsage_rows]
    omega

variable (limits : KvDatabaseConfig)

/-- The key-value store has no tables: its calls leave the tables and their objects alone. -/
theorem kvSet_frame {contract : Name} {key value : List UInt8} {payer : Name} {delta : ℤ}
    (h : db.kvSet receiver limits contract key value payer = some (db', delta)) :
    db'.tables = db.tables ∧ db'.rows = db.rows ∧ db'.secondaryRows = db.secondaryRows := by
  obtain ⟨-, -, -, ⟨kv, -, -, hdb, -⟩ | ⟨-, rfl, -⟩⟩ := db.kvSet_eq_some receiver limits h
  · subst hdb
    rw [kvUpdateTableUsage_fst]
    exact ⟨rfl, rfl, rfl⟩
  · exact ⟨rfl, rfl, rfl⟩

theorem kvErase_frame {contract : Name} {key : List UInt8} {delta : ℤ}
    (h : db.kvErase receiver contract key = some (db', delta)) :
    db'.tables = db.tables ∧ db'.rows = db.rows ∧ db'.secondaryRows = db.secondaryRows := by
  obtain ⟨-, ⟨-, rfl, -⟩ | ⟨kv, -, -, rfl, -⟩⟩ := db.kvErase_eq_some receiver h <;> exact ⟨rfl, rfl, rfl⟩

/-- **Each call keeps the counts**, and adds at most one object. -/
theorem TablesCounted.call (hwf : db.WF) (hc : db.TablesCounted)
    (hbound : db.objectCount + 1 < 2 ^ 32) {c : StorageCall}
    (h : db.call receiver limits c = some db') :
    db'.TablesCounted ∧ db'.objectCount ≤ db.objectCount + 1 := by
  cases c with
  | dbStoreI64 => exact hc.dbStoreI64 receiver hwf hbound h
  | dbUpdateI64 => exact hc.dbUpdateI64 receiver h
  | dbRemoveI64 => exact hc.dbRemoveI64 receiver hwf h
  | secondaryStore => exact hc.secondaryStore receiver hwf hbound h
  | secondaryUpdate => exact hc.secondaryUpdate receiver h
  | secondaryRemove => exact hc.secondaryRemove receiver hwf h
  | kvSet =>
    obtain ⟨⟨db'', delta⟩, hset, rfl⟩ := Option.map_eq_some_iff.mp h
    obtain ⟨htables, hrows, hsecondary⟩ := kvSet_frame receiver limits hset
    refine ⟨hc.of_eq htables hrows hsecondary, ?_⟩
    simp only [objectCount, hrows, hsecondary]
    omega
  | kvErase =>
    obtain ⟨⟨db'', delta⟩, herase, rfl⟩ := Option.map_eq_some_iff.mp h
    obtain ⟨htables, hrows, hsecondary⟩ := kvErase_frame receiver herase
    refine ⟨hc.of_eq htables hrows hsecondary, ?_⟩
    simp only [objectCount, hrows, hsecondary]
    omega

end Calls

/-! ### Runs -/

section Run

variable (limits : KvDatabaseConfig)

/-- **Along a run, the counts stay exact** while the objects stay below `2^32`. -/
theorem run_tablesCounted (hlimits : limits.Fits) :
    ∀ {calls : List (Name × StorageCall)} {db db' : ContractTables}, db.WF → db.TablesCounted →
      db.objectCount + calls.length < 2 ^ 32 → db.run limits calls = some db' → db'.TablesCounted
  | [], _, _, _, hc, _, h => by
    cases h
    exact hc
  | c :: cs, _, _, hwf, hc, hbound, h => by
    obtain ⟨db₁, hstep, hrest⟩ := PartialRun.foldlM_cons_eq_some.mp h
    rw [List.length_cons] at hbound
    obtain ⟨hc₁, hcount₁⟩ := hc.call c.1 limits hwf (by omega) hstep
    exact run_tablesCounted hlimits (hwf.call c.1 limits hlimits hstep) hc₁ (by omega) hrest

/-- Limits of the key-value store whose sum is `2^32`: keys of one byte, values of `2^32 - 1`. -/
def wrapLimits : KvDatabaseConfig := ⟨1, 4294967295⟩

/-- Account `r` stores value `v` under a one-byte key, empties it, and erases the row. -/
def wrapCalls (r : Name) (v : List UInt8) : List (Name × StorageCall) :=
  [(r, .kvSet r [0] v r), (r, .kvSet r [0] [] r), (r, .kvErase r [0])]

/-- With a value of `2^32 - 1` bytes the run ends with nothing stored and `2^32` bytes charged:
the second `kv_set` bills `+1`, the one byte of the key against an old size that wrapped to `0`. -/
theorem run_wrapCalls (r : Name) (v : List UInt8) (hv : v.length = 4294967295) :
    ∃ db', empty.run wrapLimits (wrapCalls r v) = some db' ∧ db'.tables = [] ∧ db'.rows = [] ∧
      db'.secondaryRows = [] ∧ db'.kvRows = [] ∧ db'.accountRamDeltas r = 2 ^ 32 := by
  simp [run, wrapCalls, call, kvSet, kvErase, empty, wrapLimits, kvUpdateTableUsage, KvObject.byKvKey,
    hv]
  ring

end Run

end ContractTables

end Eosio.Chain
