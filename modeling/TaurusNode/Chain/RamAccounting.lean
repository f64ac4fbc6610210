import Mathlib
import TaurusNode.Chain.ContractTables
import TaurusNode.Lib.PartialRun

/-!
# RAM billing of contract storage is conserved

What `update_db_usage` adds to the RAM delta of an account is what the objects it pays for
occupy. An object is billed its `billable_size_v`, a row also the bytes of its value (and, in
the key-value store, of its key), and a table is billed to the payer of the row that created
it. `footprint db p` sums these over the objects paid by `p`, and `excessRam db p` is the
delta of `p` less its footprint.

## Main results

* `call_excessRam`, `run_excessRam`: **no call, and no sequence of calls, changes the excess of
  any account**, so the net delta of every account is the change of its footprint.
* `call_wf`, `run_wf`: the calls keep the invariant `WF` this rests on.

`WF` says that the unique indices of the source are unique (table ids, `by_scope_primary`,
`by_primary`, `by_kv_key`), that table ids are below the next one, and that every key-value row
has fewer than `2^32` bytes of key and value. The key-value store needs one more condition, on
its limits (`KvDatabaseConfig.Fits`): `update_table_usage` adds the key and value sizes as
`uint32_t`, so a key and a value of `2^32` bytes together are billed modulo `2^32`.

Each call has an inversion lemma (`dbStoreI64_eq_some`, ...) that says what it does when it
does not throw. The excess and the invariant are then carried through the operations the call is
made of (`excessRam_updateDbUsage`, `excessRam_findOrCreateTable`, `excessRam_removeTable`, ...)
and through the changed list by the lemmas of `KeyedList`.
-/

namespace Eosio.Chain

/-- What a table costs the account `p`. -/
def TableIdObject.ramCharge (t : TableIdObject) (p : Name) : ℤ :=
  if t.payer = p then tableIdObjectBillableSize else 0

/-- What a row of the primary index costs the account `p`: the object and its value. -/
def KeyValueObject.ramCharge (r : KeyValueObject) (p : Name) : ℤ :=
  if r.payer = p then r.value.length + keyValueObjectBillableSize else 0

/-- What an object of a secondary index costs the account `p`. -/
def SecondaryObject.ramCharge (r : SecondaryObject) (p : Name) : ℤ :=
  if r.payer = p then r.index.billableSize else 0

/-- What a key-value row costs the account `p`: the object, its key and its value. -/
def KvObject.ramCharge (r : KvObject) (p : Name) : ℤ :=
  if r.payer = p then kvObjectBillableSize + r.kvKey.length + r.kvValue.length else 0

/-- Limits of the key-value store under which `update_table_usage` adds sizes without wrapping. -/
def KvDatabaseConfig.Fits (limits : KvDatabaseConfig) : Prop :=
  limits.maxKeySize.toNat + limits.maxValueSize.toNat < 2 ^ 32

instance instDecidablePredFits : DecidablePred KvDatabaseConfig.Fits := fun limits =>
  inferInstanceAs (Decidable (limits.maxKeySize.toNat + limits.maxValueSize.toNat < 2 ^ 32))

namespace ContractTables

/-- The RAM that the objects paid by `p` occupy. -/
def footprint (db : ContractTables) (p : Name) : ℤ :=
  (db.tables.map (·.ramCharge p)).sum + (db.rows.map (·.ramCharge p)).sum +
    (db.secondaryRows.map (·.ramCharge p)).sum + (db.kvRows.map (·.ramCharge p)).sum

/-- The RAM delta of `p` less what it pays for. -/
def excessRam (db : ContractTables) (p : Name) : ℤ :=
  db.accountRamDeltas p - db.footprint p

/-- The invariant of the storage that the billing rests on. -/
structure WF (db : ContractTables) : Prop where
  tableIds_nodup : (db.tables.map TableIdObject.id).Nodup
  tableId_lt : ∀ t ∈ db.tables, t.id < db.nextTableId
  rows_nodup : (db.rows.map KeyValueObject.byScopePrimary).Nodup
  secondaryRows_nodup : (db.secondaryRows.map SecondaryObject.byPrimary).Nodup
  kvRows_nodup : (db.kvRows.map KvObject.byKvKey).Nodup
  kvRows_fit : ∀ kv ∈ db.kvRows, kv.kvKey.length + kv.kvValue.length < 2 ^ 32

attribute [ext] ContractTables

variable (db : ContractTables) {db' : ContractTables}

/-! ### The operations the calls are made of -/

section Operations

variable (payer : Name) (delta : ℤ)

@[simp] theorem updateDbUsage_tables : (db.updateDbUsage payer delta).tables = db.tables := rfl
@[simp] theorem updateDbUsage_nextTableId :
    (db.updateDbUsage payer delta).nextTableId = db.nextTableId := rfl
@[simp] theorem updateDbUsage_rows : (db.updateDbUsage payer delta).rows = db.rows := rfl
@[simp] theorem updateDbUsage_secondaryRows :
    (db.updateDbUsage payer delta).secondaryRows = db.secondaryRows := rfl
@[simp] theorem updateDbUsage_kvRows : (db.updateDbUsage payer delta).kvRows = db.kvRows := rfl

@[simp] theorem updateDbUsage_accountRamDeltas (p : Name) :
    (db.updateDbUsage payer delta).accountRamDeltas p =
      db.accountRamDeltas p + if payer = p then delta else 0 := by
  by_cases h : payer = p
  · subst h
    simp [updateDbUsage]
  · simp [updateDbUsage, Function.update_of_ne (Ne.symm h), h]

theorem excessRam_updateDbUsage (p : Name) :
    (db.updateDbUsage payer delta).excessRam p = db.excessRam p + if payer = p then delta else 0 := by
  simp only [excessRam, footprint, updateDbUsage_accountRamDeltas, updateDbUsage_tables,
    updateDbUsage_rows, updateDbUsage_secondaryRows, updateDbUsage_kvRows]
  ring

theorem WF.updateDbUsage {db : ContractTables} (hwf : db.WF) : (db.updateDbUsage payer delta).WF :=
  ⟨hwf.tableIds_nodup, hwf.tableId_lt, hwf.rows_nodup, hwf.secondaryRows_nodup, hwf.kvRows_nodup,
    hwf.kvRows_fit⟩

variable (tId : ℕ) (f : UInt32 → UInt32)

@[simp] theorem modifyCount_nextTableId : (db.modifyCount tId f).nextTableId = db.nextTableId := rfl
@[simp] theorem modifyCount_rows : (db.modifyCount tId f).rows = db.rows := rfl
@[simp] theorem modifyCount_secondaryRows :
    (db.modifyCount tId f).secondaryRows = db.secondaryRows := rfl
@[simp] theorem modifyCount_kvRows : (db.modifyCount tId f).kvRows = db.kvRows := rfl
@[simp] theorem modifyCount_accountRamDeltas :
    (db.modifyCount tId f).accountRamDeltas = db.accountRamDeltas := rfl

/-- A count changes no table's id. -/
@[simp] theorem modifyCount_tables_map_id :
    (db.modifyCount tId f).tables.map TableIdObject.id = db.tables.map TableIdObject.id := by
  simp only [modifyCount, List.map_map]
  refine List.map_congr_left fun t _ => ?_
  by_cases h : t.id = tId <;> simp [h]

theorem mem_modifyCount_tables {t : TableIdObject} (ht : t ∈ (db.modifyCount tId f).tables) :
    ∃ t₀ ∈ db.tables, t.id = t₀.id ∧ t.payer = t₀.payer := by
  simp only [modifyCount, List.mem_map] at ht
  obtain ⟨t₀, ht₀, rfl⟩ := ht
  refine ⟨t₀, ht₀, ?_⟩
  split_ifs <;> simp

/-- A count changes no table's payer. -/
@[simp] theorem modifyCount_tables_map_ramCharge (p : Name) :
    (db.modifyCount tId f).tables.map (·.ramCharge p) = db.tables.map (·.ramCharge p) := by
  simp only [modifyCount, List.map_map]
  refine List.map_congr_left fun t _ => ?_
  by_cases h : t.id = tId <;> simp [h, TableIdObject.ramCharge]

theorem excessRam_modifyCount : (db.modifyCount tId f).excessRam = db.excessRam := by
  ext p
  simp only [excessRam, footprint, modifyCount_tables_map_ramCharge, modifyCount_rows,
    modifyCount_secondaryRows, modifyCount_kvRows, modifyCount_accountRamDeltas]

theorem WF.modifyCount {db : ContractTables} (hwf : db.WF) : (db.modifyCount tId f).WF := by
  refine ⟨by simpa using hwf.tableIds_nodup, fun t ht => ?_, hwf.rows_nodup,
    hwf.secondaryRows_nodup, hwf.kvRows_nodup, hwf.kvRows_fit⟩
  obtain ⟨t₀, ht₀, hid, -⟩ := db.mem_modifyCount_tables tId f ht
  rw [hid]
  exact hwf.tableId_lt t₀ ht₀

end Operations

section WithRows

variable {db : ContractTables}

theorem WF.withRows (hwf : db.WF) {rows : List KeyValueObject}
    (hrows : (rows.map KeyValueObject.byScopePrimary).Nodup) : { db with rows }.WF :=
  ⟨hwf.tableIds_nodup, hwf.tableId_lt, hrows, hwf.secondaryRows_nodup, hwf.kvRows_nodup,
    hwf.kvRows_fit⟩

theorem WF.withSecondaryRows (hwf : db.WF) {secondaryRows : List SecondaryObject}
    (hrows : (secondaryRows.map SecondaryObject.byPrimary).Nodup) : { db with secondaryRows }.WF :=
  ⟨hwf.tableIds_nodup, hwf.tableId_lt, hwf.rows_nodup, hrows, hwf.kvRows_nodup, hwf.kvRows_fit⟩

theorem WF.withKvRows (hwf : db.WF) {kvRows : List KvObject}
    (hrows : (kvRows.map KvObject.byKvKey).Nodup)
    (hfit : ∀ kv ∈ kvRows, kv.kvKey.length + kv.kvValue.length < 2 ^ 32) : { db with kvRows }.WF :=
  ⟨hwf.tableIds_nodup, hwf.tableId_lt, hwf.rows_nodup, hwf.secondaryRows_nodup, hrows, hfit⟩

end WithRows

theorem getTable_eq_some {tId : ℕ} {t : TableIdObject} (h : db.getTable tId = some t) :
    t ∈ db.tables ∧ t.id = tId :=
  ⟨List.mem_of_find?_eq_some h, by simpa using List.find?_some h⟩

/-- With unique ids, `get_table` finds exactly the table with the id. -/
theorem getTable_eq_some_iff (hnodup : (db.tables.map TableIdObject.id).Nodup) {tId : ℕ}
    {t : TableIdObject} : db.getTable tId = some t ↔ t ∈ db.tables ∧ t.id = tId :=
  KeyedList.find?_key_eq_some_iff TableIdObject.id hnodup

/-- `find_or_create_table` finds the table of `(code, scope, table)`, or creates it with the next
id and bills it to the payer. -/
theorem findOrCreateTable_cases (code scope table payer : Name) :
    (∃ t ∈ db.tables, t.code = code ∧ t.scope = scope ∧ t.table = table ∧
      db.findOrCreateTable code scope table payer = (db, t)) ∨
    (db.findOrCreateTable code scope table payer =
      ({ db.updateDbUsage payer tableIdObjectBillableSize with
          tables := db.tables ++ [⟨db.nextTableId, code, scope, table, payer, 0⟩]
          nextTableId := db.nextTableId + 1 }, ⟨db.nextTableId, code, scope, table, payer, 0⟩)) := by
  unfold findOrCreateTable
  split
  · rename_i t ht
    have hmatch := List.find?_some ht
    simp only [decide_eq_true_eq] at hmatch
    exact .inl ⟨t, List.mem_of_find?_eq_some ht, hmatch.1, hmatch.2.1, hmatch.2.2, rfl⟩
  · exact .inr rfl

section FindOrCreateTable

variable (code scope table payer : Name)

@[simp] theorem findOrCreateTable_rows : (db.findOrCreateTable code scope table payer).1.rows = db.rows := by
  rcases db.findOrCreateTable_cases code scope table payer with ⟨t, -, -, -, -, h⟩ | h
  · rw [h]
  · rw [h]
    rfl

@[simp] theorem findOrCreateTable_secondaryRows :
    (db.findOrCreateTable code scope table payer).1.secondaryRows = db.secondaryRows := by
  rcases db.findOrCreateTable_cases code scope table payer with ⟨t, -, -, -, -, h⟩ | h
  · rw [h]
  · rw [h]
    rfl

@[simp] theorem findOrCreateTable_kvRows :
    (db.findOrCreateTable code scope table payer).1.kvRows = db.kvRows := by
  rcases db.findOrCreateTable_cases code scope table payer with ⟨t, -, -, -, -, h⟩ | h
  · rw [h]
  · rw [h]
    rfl

/-- The table found or created is a table of the new state. -/
theorem findOrCreateTable_mem :
    (db.findOrCreateTable code scope table payer).2 ∈ (db.findOrCreateTable code scope table payer).1.tables := by
  rcases db.findOrCreateTable_cases code scope table payer with ⟨t, ht, -, -, -, h⟩ | h
  · simpa [h] using ht
  · simp [h]

/-- A created table is billed to the payer as it is counted in the footprint. -/
theorem excessRam_findOrCreateTable :
    (db.findOrCreateTable code scope table payer).1.excessRam = db.excessRam := by
  rcases db.findOrCreateTable_cases code scope table payer with ⟨t, -, -, -, -, h⟩ | h
  · rw [h]
  · rw [h]
    ext p
    simp only [excessRam, footprint, updateDbUsage_accountRamDeltas, updateDbUsage_rows,
      updateDbUsage_secondaryRows, updateDbUsage_kvRows, List.map_append, List.sum_append,
      List.map_cons, List.map_nil, List.sum_cons, List.sum_nil, TableIdObject.ramCharge]
    ring

theorem WF.findOrCreateTable {db : ContractTables} (hwf : db.WF) :
    (db.findOrCreateTable code scope table payer).1.WF := by
  rcases db.findOrCreateTable_cases code scope table payer with ⟨t, -, -, -, -, h⟩ | h
  · rw [h]
    exact hwf
  · rw [h]
    -- the next id is fresh
    have hfresh : db.nextTableId ∉ db.tables.map TableIdObject.id := fun hmem => by
      obtain ⟨t, ht, hid⟩ := List.mem_map.mp hmem
      exact absurd (hwf.tableId_lt t ht) (by omega)
    refine ⟨?_, fun t ht => ?_, hwf.rows_nodup, hwf.secondaryRows_nodup, hwf.kvRows_nodup,
      hwf.kvRows_fit⟩
    · exact KeyedList.nodup_map_append_singleton TableIdObject.id hwf.tableIds_nodup hfresh
    · rcases List.mem_append.mp ht with ht | ht
      · exact Nat.lt_succ_of_lt (hwf.tableId_lt t ht)
      · simp at ht
        simp [ht]

end FindOrCreateTable

/-- `remove_table` refunds the table's payer what the table is counted for. -/
theorem excessRam_removeTable (hnodup : (db.tables.map TableIdObject.id).Nodup) {t : TableIdObject}
    (ht : t ∈ db.tables) : (db.removeTable t).excessRam = db.excessRam := by
  ext p
  have hsum := KeyedList.sum_map_filter_key_ne TableIdObject.id (fun t : TableIdObject => t.ramCharge p)
    hnodup ht
  simp only [excessRam, footprint, removeTable, updateDbUsage_accountRamDeltas, updateDbUsage_rows,
    updateDbUsage_secondaryRows, updateDbUsage_kvRows]
  simp only [TableIdObject.ramCharge] at hsum ⊢
  split_ifs at hsum ⊢ <;> linarith

theorem WF.removeTable {db : ContractTables} (hwf : db.WF) (t : TableIdObject) : (db.removeTable t).WF := by
  have hsub : (db.removeTable t).tables.Sublist db.tables := List.filter_sublist
  exact ⟨KeyedList.nodup_map_filter TableIdObject.id hwf.tableIds_nodup _, fun t' ht' => hwf.tableId_lt t' (hsub.subset ht'),
    hwf.rows_nodup, hwf.secondaryRows_nodup, hwf.kvRows_nodup, hwf.kvRows_fit⟩

/-- After the last row of a table is removed, the table is removed; otherwise nothing changes. -/
theorem removeTableIfEmpty_cases (tId : ℕ) :
    ((∀ t, db.getTable tId = some t → t.count ≠ 0) ∧ db.removeTableIfEmpty tId = db) ∨
      ∃ t ∈ db.tables, t.id = tId ∧ t.count = 0 ∧ db.removeTableIfEmpty tId = db.removeTable t := by
  unfold removeTableIfEmpty
  split
  · rename_i t ht
    obtain ⟨hmem, hid⟩ := db.getTable_eq_some ht
    split_ifs with hcount
    · exact .inr ⟨t, hmem, hid, hcount, rfl⟩
    · refine .inl ⟨fun t' ht' => ?_, rfl⟩
      rw [ht] at ht'
      rw [← Option.some.inj ht']
      exact hcount
  · rename_i hnone
    exact .inl ⟨fun t ht => absurd (hnone.symm.trans ht) (by simp), rfl⟩

theorem excessRam_removeTableIfEmpty (hnodup : (db.tables.map TableIdObject.id).Nodup) (tId : ℕ) :
    (db.removeTableIfEmpty tId).excessRam = db.excessRam := by
  rcases db.removeTableIfEmpty_cases tId with ⟨-, h⟩ | ⟨t, ht, -, -, h⟩
  · rw [h]
  · rw [h, db.excessRam_removeTable hnodup ht]

theorem WF.removeTableIfEmpty {db : ContractTables} (hwf : db.WF) (tId : ℕ) :
    (db.removeTableIfEmpty tId).WF := by
  rcases db.removeTableIfEmpty_cases tId with ⟨-, h⟩ | ⟨t, -, -, -, h⟩
  · rw [h]
    exact hwf
  · rw [h]
    exact hwf.removeTable t

@[simp] theorem removeTableIfEmpty_rows (tId : ℕ) : (db.removeTableIfEmpty tId).rows = db.rows := by
  rcases db.removeTableIfEmpty_cases tId with ⟨-, h⟩ | ⟨t, -, -, -, h⟩ <;> rw [h]; rfl

@[simp] theorem removeTableIfEmpty_secondaryRows (tId : ℕ) :
    (db.removeTableIfEmpty tId).secondaryRows = db.secondaryRows := by
  rcases db.removeTableIfEmpty_cases tId with ⟨-, h⟩ | ⟨t, -, -, -, h⟩ <;> rw [h]; rfl

/-- A sum of two sizes below `2^32` does not wrap in `uint32_t`. -/
theorem toNat_toUInt32_add_toUInt32 {a b : ℕ} (h : a + b < 2 ^ 32) :
    (a.toUInt32 + b.toUInt32).toNat = a + b := by
  rw [UInt32.toNat_add]
  simp only [Nat.toUInt32, UInt32.toNat_ofNat']
  omega

/-! ### What each call does

One inversion lemma per call: the checks it passes and the state it leaves when it does not
throw. -/

section Calls

variable (receiver : Name)

theorem dbStoreI64_eq_some {scope table payer : Name} {id : UInt64} {buffer : List UInt8}
    {db₁ : ContractTables} {tab : TableIdObject}
    (hc : db.findOrCreateTable receiver scope table payer = (db₁, tab))
    (h : db.dbStoreI64 receiver scope table payer id buffer = some db') :
    payer ≠ Name.empty ∧ (tab.id, id) ∉ db₁.rows.map KeyValueObject.byScopePrimary ∧
      db' = ({ db₁ with rows := db₁.rows ++ [(⟨tab.id, id, payer, buffer⟩ : KeyValueObject)] }.modifyCount tab.id
        (· + 1)).updateDbUsage payer (buffer.length + keyValueObjectBillableSize) := by
  simp only [dbStoreI64, hc] at h
  split_ifs at h with hpayer hdup
  refine ⟨hpayer, fun hmem => hdup ?_, (Option.some.inj h).symm⟩
  obtain ⟨r, hr, hkey⟩ := List.mem_map.mp hmem
  exact List.find?_isSome.mpr ⟨r, hr, by simpa using hkey⟩

/-- The billing of `db_update_i64`: the old payer is refunded the old size and the new payer is
charged the new size, in each of its three branches. -/
theorem rebill_eq (a b : Name) (x y : ℤ) :
    (if a ≠ b then (db.updateDbUsage a (-x)).updateDbUsage b y
      else if x ≠ y then db.updateDbUsage a (y - x) else db) =
      { db with accountRamDeltas := fun p =>
          db.accountRamDeltas p - (if a = p then x else 0) + (if b = p then y else 0) } := by
  by_cases hab : a = b
  · subst hab
    by_cases hxy : x = y
    · subst hxy
      ext p <;> simp
    · ext p <;> simp [hxy]
      split_ifs <;> ring
  · ext p <;> simp [hab]
    split_ifs <;> ring

theorem dbUpdateI64_eq_some {tId : ℕ} {primaryKey : UInt64} {payer : Name} {buffer : List UInt8}
    (h : db.dbUpdateI64 receiver tId primaryKey payer buffer = some db') :
    ∃ obj ∈ db.rows, obj.byScopePrimary = (tId, primaryKey) ∧
      (∃ t ∈ db.tables, t.id = obj.tId ∧ t.code = receiver) ∧
      db' = { db with
        rows := db.rows.map fun r => if r.byScopePrimary = obj.byScopePrimary then
          { r with value := buffer, payer := if payer = Name.empty then obj.payer else payer } else r
        accountRamDeltas := fun p => db.accountRamDeltas p - obj.ramCharge p +
          { obj with value := buffer, payer := if payer = Name.empty then obj.payer else payer }.ramCharge p } := by
  simp only [dbUpdateI64] at h
  split at h
  · simp at h
  rename_i obj hobj
  split at h
  · simp at h
  rename_i t ht
  obtain ⟨hmem, hid⟩ := db.getTable_eq_some ht
  by_cases hcode : t.code ≠ receiver
  · rw [if_pos hcode] at h
    simp at h
  rw [if_neg hcode, rebill_eq] at h
  refine ⟨obj, List.mem_of_find?_eq_some hobj, by simpa using List.find?_some hobj,
    ⟨t, hmem, hid, not_not.mp hcode⟩, ?_⟩
  rw [← Option.some.inj h]
  rfl

theorem dbRemoveI64_eq_some {tId : ℕ} {primaryKey : UInt64}
    (h : db.dbRemoveI64 receiver tId primaryKey = some db') :
    ∃ obj ∈ db.rows, obj.byScopePrimary = (tId, primaryKey) ∧
      (∃ t ∈ db.tables, t.id = obj.tId ∧ t.code = receiver) ∧
      db' = ({ (db.updateDbUsage obj.payer (-(obj.value.length + keyValueObjectBillableSize))).modifyCount
        obj.tId (· - 1) with rows := db.rows.filter fun r => r.byScopePrimary ≠ obj.byScopePrimary }).removeTableIfEmpty
        obj.tId := by
  simp only [dbRemoveI64] at h
  split at h
  · simp at h
  rename_i obj hobj
  split at h
  · simp at h
  rename_i t ht
  obtain ⟨hmem, hid⟩ := db.getTable_eq_some ht
  by_cases hcode : t.code ≠ receiver
  · rw [if_pos hcode] at h
    simp at h
  rw [if_neg hcode] at h
  exact ⟨obj, List.mem_of_find?_eq_some hobj, by simpa using List.find?_some hobj,
    ⟨t, hmem, hid, not_not.mp hcode⟩, (Option.some.inj h).symm⟩

theorem secondaryStore_eq_some {index : SecondaryIndex} {scope table payer : Name} {id : UInt64}
    {db₁ : ContractTables} {tab : TableIdObject}
    (hc : db.findOrCreateTable receiver scope table payer = (db₁, tab))
    (h : db.secondaryStore receiver index scope table payer id = some db') :
    payer ≠ Name.empty ∧ (index, tab.id, id) ∉ db₁.secondaryRows.map SecondaryObject.byPrimary ∧
      db' = ({ db₁ with secondaryRows := db₁.secondaryRows ++ [(⟨index, tab.id, id, payer⟩ : SecondaryObject)] }.modifyCount
        tab.id (· + 1)).updateDbUsage payer index.billableSize := by
  simp only [secondaryStore, hc] at h
  split_ifs at h with hpayer hdup
  refine ⟨hpayer, fun hmem => hdup ?_, (Option.some.inj h).symm⟩
  obtain ⟨r, hr, hkey⟩ := List.mem_map.mp hmem
  exact List.find?_isSome.mpr ⟨r, hr, by simpa using hkey⟩

theorem secondaryRemove_eq_some {index : SecondaryIndex} {tId : ℕ} {primaryKey : UInt64}
    (h : db.secondaryRemove receiver index tId primaryKey = some db') :
    ∃ obj ∈ db.secondaryRows, obj.byPrimary = (index, tId, primaryKey) ∧
      (∃ t ∈ db.tables, t.id = obj.tId ∧ t.code = receiver) ∧
      db' = ({ (db.updateDbUsage obj.payer (-index.billableSize)).modifyCount obj.tId (· - 1) with
        secondaryRows := db.secondaryRows.filter fun r => r.byPrimary ≠ obj.byPrimary }).removeTableIfEmpty
        obj.tId := by
  simp only [secondaryRemove] at h
  split at h
  · simp at h
  rename_i obj hobj
  split at h
  · simp at h
  rename_i t ht
  obtain ⟨hmem, hid⟩ := db.getTable_eq_some ht
  by_cases hcode : t.code ≠ receiver
  · rw [if_pos hcode] at h
    simp at h
  rw [if_neg hcode] at h
  exact ⟨obj, List.mem_of_find?_eq_some hobj, by simpa using List.find?_some hobj,
    ⟨t, hmem, hid, not_not.mp hcode⟩, (Option.some.inj h).symm⟩

theorem secondaryUpdate_eq_some {index : SecondaryIndex} {tId : ℕ} {primaryKey : UInt64}
    {payer : Name} (h : db.secondaryUpdate receiver index tId primaryKey payer = some db') :
    ∃ obj ∈ db.secondaryRows, obj.byPrimary = (index, tId, primaryKey) ∧
      (∃ t ∈ db.tables, t.id = obj.tId ∧ t.code = receiver) ∧
      db' = { db with
        secondaryRows := db.secondaryRows.map fun r => if r.byPrimary = obj.byPrimary then
          { r with payer := if payer = Name.empty then obj.payer else payer } else r
        accountRamDeltas := fun p => db.accountRamDeltas p - obj.ramCharge p +
          { obj with payer := if payer = Name.empty then obj.payer else payer }.ramCharge p } := by
  simp only [secondaryUpdate] at h
  split at h
  · simp at h
  rename_i obj hobj
  split at h
  · simp at h
  rename_i t ht
  obtain ⟨hmem, hid⟩ := db.getTable_eq_some ht
  by_cases hcode : t.code ≠ receiver
  · rw [if_pos hcode] at h
    simp at h
  rw [if_neg hcode] at h
  have hkey : obj.byPrimary = (index, tId, primaryKey) := by simpa using List.find?_some hobj
  refine ⟨obj, List.mem_of_find?_eq_some hobj, hkey, ⟨t, hmem, hid, not_not.mp hcode⟩, ?_⟩
  rw [← Option.some.inj h]
  -- the index of the call is the object's own
  have hindex : obj.index = index := congrArg Prod.fst hkey
  by_cases hpayer : obj.payer = if payer = Name.empty then obj.payer else payer
  · rw [if_neg (not_not.mpr hpayer)]
    ext p <;> simp [SecondaryObject.ramCharge, ← hpayer]
  · rw [if_pos hpayer]
    ext p <;> simp [SecondaryObject.ramCharge, hindex]
    split_ifs <;> ring

/-- The billing of `update_table_usage`, with the old and new sizes added in `uint32_t`. -/
theorem kvUpdateTableUsage_fst (oldPayer newPayer : Name) (keySize oldValueSize newValueSize : UInt32) :
    (db.kvUpdateTableUsage oldPayer newPayer keySize oldValueSize newValueSize).1 =
      { db with accountRamDeltas := fun p => db.accountRamDeltas p
          - (if oldPayer = p then ((keySize + oldValueSize).toNat : ℤ) + kvObjectBillableSize else 0)
          + (if newPayer = p then ((keySize + newValueSize).toNat : ℤ) + kvObjectBillableSize else 0) } := by
  unfold kvUpdateTableUsage
  by_cases hpayer : oldPayer = newPayer
  · subst hpayer
    by_cases hsize : ((keySize + oldValueSize).toNat : ℤ) = (keySize + newValueSize).toNat
    · simp only [ne_eq, not_true_eq_false, if_false, hsize, not_true_eq_false]
      ext p <;> simp
    · simp only [ne_eq, not_true_eq_false, if_false, hsize, not_false_eq_true, if_true]
      ext p <;> simp
      split_ifs <;> ring
  · simp only [ne_eq, hpayer, not_false_eq_true, if_true]
    ext p <;> simp
    split_ifs <;> ring

variable (limits : KvDatabaseConfig)

theorem kvSet_eq_some {contract : Name} {key value : List UInt8} {payer : Name} {delta : ℤ}
    (h : db.kvSet receiver limits contract key value payer = some (db', delta)) :
    contract = receiver ∧ key.length ≤ limits.maxKeySize.toNat ∧
      value.length ≤ limits.maxValueSize.toNat ∧
      ((∃ kv ∈ db.kvRows, kv.byKvKey = (contract, key) ∧
        let usage := db.kvUpdateTableUsage kv.payer payer key.length.toUInt32
          kv.kvValue.length.toUInt32 value.length.toUInt32
        db' = { usage.1 with kvRows := usage.1.kvRows.map fun r =>
          if r.byKvKey = kv.byKvKey then { r with kvValue := value, payer } else r } ∧
        delta = usage.2) ∨
      ((contract, key) ∉ db.kvRows.map KvObject.byKvKey ∧
        db' = { db.updateDbUsage payer (kvObjectBillableSize + key.length + value.length) with
          kvRows := db.kvRows ++ [⟨contract, key, value, payer⟩] } ∧
        delta = kvObjectBillableSize + key.length + value.length)) := by
  simp only [kvSet] at h
  split_ifs at h with hcontract hkey hvalue
  refine ⟨not_not.mp hcontract, not_lt.mp hkey, not_lt.mp hvalue, ?_⟩
  split at h
  · rename_i kv hkv
    simp only [Option.some.injEq, Prod.mk.injEq] at h
    exact .inl ⟨kv, List.mem_of_find?_eq_some hkv, by simpa using List.find?_some hkv, h.1.symm,
      h.2.symm⟩
  · rename_i hnone
    simp only [Option.some.injEq, Prod.mk.injEq] at h
    refine .inr ⟨fun hmem => ?_, h.1.symm, h.2.symm⟩
    obtain ⟨r, hr, hrkey⟩ := List.mem_map.mp hmem
    exact absurd hnone (List.find?_isSome.mpr ⟨r, hr, by simpa using hrkey⟩ |> Option.isSome_iff_ne_none.mp)

theorem kvErase_eq_some {contract : Name} {key : List UInt8} {delta : ℤ}
    (h : db.kvErase receiver contract key = some (db', delta)) :
    contract = receiver ∧
      (((contract, key) ∉ db.kvRows.map KvObject.byKvKey ∧ db' = db ∧ delta = 0) ∨
      (∃ kv ∈ db.kvRows, kv.byKvKey = (contract, key) ∧
        db' = { db.updateDbUsage kv.payer (-(kvObjectBillableSize + kv.kvKey.length + kv.kvValue.length)) with
          kvRows := db.kvRows.filter fun r => r.byKvKey ≠ kv.byKvKey } ∧
        delta = -(kvObjectBillableSize + kv.kvKey.length + kv.kvValue.length))) := by
  simp only [kvErase] at h
  split_ifs at h with hcontract
  refine ⟨not_not.mp hcontract, ?_⟩
  split at h
  · rename_i hnone
    simp only [Option.some.injEq, Prod.mk.injEq] at h
    refine .inl ⟨fun hmem => ?_, h.1.symm, h.2.symm⟩
    obtain ⟨r, hr, hrkey⟩ := List.mem_map.mp hmem
    exact absurd hnone (List.find?_isSome.mpr ⟨r, hr, by simpa using hrkey⟩ |> Option.isSome_iff_ne_none.mp)
  · rename_i kv hkv
    simp only [Option.some.injEq, Prod.mk.injEq] at h
    exact .inr ⟨kv, List.mem_of_find?_eq_some hkv, by simpa using List.find?_some hkv, h.1.symm,
      h.2.symm⟩

end Calls

/-! ### Each call keeps the excess and the invariant -/

section Conservation

variable {db} (receiver : Name)

theorem dbStoreI64_excessRam {scope table payer : Name} {id : UInt64} {buffer : List UInt8}
    (h : db.dbStoreI64 receiver scope table payer id buffer = some db') :
    db'.excessRam = db.excessRam := by
  rcases hc : db.findOrCreateTable receiver scope table payer with ⟨db₁, tab⟩
  have h₁ : db₁.excessRam = db.excessRam := by
    simpa [hc] using db.excessRam_findOrCreateTable receiver scope table payer
  obtain ⟨-, -, rfl⟩ := db.dbStoreI64_eq_some receiver hc h
  ext p
  rw [excessRam_updateDbUsage, excessRam_modifyCount, ← h₁]
  -- the new row is billed to its payer as the footprint counts it
  simp only [excessRam, footprint, List.map_append, List.sum_append, List.map_singleton,
    List.sum_singleton, KeyValueObject.ramCharge]
  split_ifs <;> ring

theorem WF.dbStoreI64 (hwf : db.WF) {scope table payer : Name} {id : UInt64}
    {buffer : List UInt8} (h : db.dbStoreI64 receiver scope table payer id buffer = some db') :
    db'.WF := by
  rcases hc : db.findOrCreateTable receiver scope table payer with ⟨db₁, tab⟩
  have hwf₁ : db₁.WF := by simpa [hc] using hwf.findOrCreateTable receiver scope table payer
  obtain ⟨-, hfresh, rfl⟩ := db.dbStoreI64_eq_some receiver hc h
  apply WF.updateDbUsage
  apply WF.modifyCount
  exact hwf₁.withRows (KeyedList.nodup_map_append_singleton _ hwf₁.rows_nodup hfresh)

theorem dbUpdateI64_excessRam (hwf : db.WF) {tId : ℕ} {primaryKey : UInt64} {payer : Name}
    {buffer : List UInt8} (h : db.dbUpdateI64 receiver tId primaryKey payer buffer = some db') :
    db'.excessRam = db.excessRam := by
  obtain ⟨obj, hobj, -, -, rfl⟩ := db.dbUpdateI64_eq_some receiver h
  ext p
  -- the update changes the one row with the key: its old charge is traded for its new one
  have hsum := KeyedList.sum_map_update_key KeyValueObject.byScopePrimary
    (fun r : KeyValueObject => r.ramCharge p) hwf.rows_nodup hobj
    (fun r => { r with value := buffer, payer := if payer = Name.empty then obj.payer else payer })
  beta_reduce at hsum
  simp only [excessRam, footprint]
  linarith

theorem WF.dbUpdateI64 (hwf : db.WF) {tId : ℕ} {primaryKey : UInt64} {payer : Name}
    {buffer : List UInt8} (h : db.dbUpdateI64 receiver tId primaryKey payer buffer = some db') :
    db'.WF := by
  obtain ⟨obj, -, -, -, rfl⟩ := db.dbUpdateI64_eq_some receiver h
  refine ⟨hwf.tableIds_nodup, hwf.tableId_lt, ?_, hwf.secondaryRows_nodup, hwf.kvRows_nodup,
    hwf.kvRows_fit⟩
  dsimp only
  rw [KeyedList.map_key_update KeyValueObject.byScopePrimary
    (fun r : KeyValueObject => { r with value := buffer, payer := if payer = Name.empty then obj.payer else payer })
    fun _ => rfl]
  exact hwf.rows_nodup

theorem dbRemoveI64_excessRam (hwf : db.WF) {tId : ℕ} {primaryKey : UInt64}
    (h : db.dbRemoveI64 receiver tId primaryKey = some db') : db'.excessRam = db.excessRam := by
  obtain ⟨obj, hobj, -, -, rfl⟩ := db.dbRemoveI64_eq_some receiver h
  refine (excessRam_removeTableIfEmpty _ ?_ _).trans ?_
  · simpa using hwf.tableIds_nodup
  ext p
  -- the row with the key is removed alone, and its payer refunded its charge
  have hsum := KeyedList.sum_map_filter_key_ne KeyValueObject.byScopePrimary
    (fun r : KeyValueObject => r.ramCharge p) hwf.rows_nodup hobj
  simp only [excessRam, footprint, modifyCount_tables_map_ramCharge, modifyCount_accountRamDeltas,
    modifyCount_secondaryRows, modifyCount_kvRows, updateDbUsage_accountRamDeltas,
    updateDbUsage_tables, updateDbUsage_secondaryRows, updateDbUsage_kvRows]
  simp only [KeyValueObject.ramCharge] at hsum ⊢
  split_ifs at hsum ⊢ <;> linarith

theorem WF.dbRemoveI64 (hwf : db.WF) {tId : ℕ} {primaryKey : UInt64}
    (h : db.dbRemoveI64 receiver tId primaryKey = some db') : db'.WF := by
  obtain ⟨obj, -, -, -, rfl⟩ := db.dbRemoveI64_eq_some receiver h
  apply WF.removeTableIfEmpty
  exact ((hwf.updateDbUsage _ _).modifyCount _ _).withRows
    (KeyedList.nodup_map_filter _ hwf.rows_nodup _)

theorem secondaryStore_excessRam {index : SecondaryIndex} {scope table payer : Name} {id : UInt64}
    (h : db.secondaryStore receiver index scope table payer id = some db') :
    db'.excessRam = db.excessRam := by
  rcases hc : db.findOrCreateTable receiver scope table payer with ⟨db₁, tab⟩
  have h₁ : db₁.excessRam = db.excessRam := by
    simpa [hc] using db.excessRam_findOrCreateTable receiver scope table payer
  obtain ⟨-, -, rfl⟩ := db.secondaryStore_eq_some receiver hc h
  ext p
  rw [excessRam_updateDbUsage, excessRam_modifyCount, ← h₁]
  simp only [excessRam, footprint, List.map_append, List.sum_append, List.map_singleton,
    List.sum_singleton, SecondaryObject.ramCharge]
  split_ifs <;> ring

theorem WF.secondaryStore (hwf : db.WF) {index : SecondaryIndex} {scope table payer : Name}
    {id : UInt64} (h : db.secondaryStore receiver index scope table payer id = some db') :
    db'.WF := by
  rcases hc : db.findOrCreateTable receiver scope table payer with ⟨db₁, tab⟩
  have hwf₁ : db₁.WF := by simpa [hc] using hwf.findOrCreateTable receiver scope table payer
  obtain ⟨-, hfresh, rfl⟩ := db.secondaryStore_eq_some receiver hc h
  apply WF.updateDbUsage
  apply WF.modifyCount
  exact hwf₁.withSecondaryRows
    (KeyedList.nodup_map_append_singleton _ hwf₁.secondaryRows_nodup hfresh)

theorem secondaryRemove_excessRam (hwf : db.WF) {index : SecondaryIndex} {tId : ℕ}
    {primaryKey : UInt64} (h : db.secondaryRemove receiver index tId primaryKey = some db') :
    db'.excessRam = db.excessRam := by
  obtain ⟨obj, hobj, hkey, -, rfl⟩ := db.secondaryRemove_eq_some receiver h
  have hindex : obj.index = index := congrArg Prod.fst hkey
  refine (excessRam_removeTableIfEmpty _ ?_ _).trans ?_
  · simpa using hwf.tableIds_nodup
  ext p
  have hsum := KeyedList.sum_map_filter_key_ne SecondaryObject.byPrimary
    (fun r : SecondaryObject => r.ramCharge p) hwf.secondaryRows_nodup hobj
  simp only [excessRam, footprint, modifyCount_tables_map_ramCharge, modifyCount_accountRamDeltas,
    modifyCount_rows, modifyCount_kvRows, updateDbUsage_accountRamDeltas,
    updateDbUsage_tables, updateDbUsage_rows, updateDbUsage_kvRows]
  simp only [SecondaryObject.ramCharge, hindex] at hsum ⊢
  split_ifs at hsum ⊢ <;> linarith

theorem WF.secondaryRemove (hwf : db.WF) {index : SecondaryIndex} {tId : ℕ} {primaryKey : UInt64}
    (h : db.secondaryRemove receiver index tId primaryKey = some db') : db'.WF := by
  obtain ⟨obj, -, -, -, rfl⟩ := db.secondaryRemove_eq_some receiver h
  apply WF.removeTableIfEmpty
  exact ((hwf.updateDbUsage _ _).modifyCount _ _).withSecondaryRows
    (KeyedList.nodup_map_filter _ hwf.secondaryRows_nodup _)

theorem secondaryUpdate_excessRam (hwf : db.WF) {index : SecondaryIndex} {tId : ℕ}
    {primaryKey : UInt64} {payer : Name}
    (h : db.secondaryUpdate receiver index tId primaryKey payer = some db') :
    db'.excessRam = db.excessRam := by
  obtain ⟨obj, hobj, -, -, rfl⟩ := db.secondaryUpdate_eq_some receiver h
  ext p
  have hsum := KeyedList.sum_map_update_key SecondaryObject.byPrimary
    (fun r : SecondaryObject => r.ramCharge p) hwf.secondaryRows_nodup hobj
    (fun r => { r with payer := if payer = Name.empty then obj.payer else payer })
  beta_reduce at hsum
  simp only [excessRam, footprint]
  linarith

theorem WF.secondaryUpdate (hwf : db.WF) {index : SecondaryIndex} {tId : ℕ} {primaryKey : UInt64}
    {payer : Name} (h : db.secondaryUpdate receiver index tId primaryKey payer = some db') :
    db'.WF := by
  obtain ⟨obj, -, -, -, rfl⟩ := db.secondaryUpdate_eq_some receiver h
  refine ⟨hwf.tableIds_nodup, hwf.tableId_lt, hwf.rows_nodup, ?_, hwf.kvRows_nodup,
    hwf.kvRows_fit⟩
  dsimp only
  rw [KeyedList.map_key_update SecondaryObject.byPrimary
    (fun r : SecondaryObject => { r with payer := if payer = Name.empty then obj.payer else payer }) fun _ => rfl]
  exact hwf.secondaryRows_nodup

variable (limits : KvDatabaseConfig)

theorem kvSet_excessRam (hlimits : limits.Fits) (hwf : db.WF) {contract : Name}
    {key value : List UInt8} {payer : Name} {delta : ℤ}
    (h : db.kvSet receiver limits contract key value payer = some (db', delta)) :
    db'.excessRam = db.excessRam := by
  obtain ⟨-, hkey, hvalue, ⟨kv, hkv, hkvkey, hdb, -⟩ | ⟨-, rfl, -⟩⟩ := db.kvSet_eq_some receiver limits h
  · -- an existing row, billed by `update_table_usage`, whose sums do not wrap here
    subst hdb
    have hk : kv.kvKey = key := congrArg Prod.snd hkvkey
    have hold : (key.length.toUInt32 + kv.kvValue.length.toUInt32).toNat =
        key.length + kv.kvValue.length :=
      toNat_toUInt32_add_toUInt32 (hk ▸ hwf.kvRows_fit kv hkv)
    have hnew : (key.length.toUInt32 + value.length.toUInt32).toNat = key.length + value.length :=
      toNat_toUInt32_add_toUInt32 (by unfold KvDatabaseConfig.Fits at hlimits; omega)
    ext p
    have hsum := KeyedList.sum_map_update_key KvObject.byKvKey (fun r : KvObject => r.ramCharge p)
      hwf.kvRows_nodup hkv (fun r => { r with kvValue := value, payer })
    beta_reduce at hsum
    rw [kvUpdateTableUsage_fst]
    simp only [excessRam, footprint, hold, hnew]
    simp only [KvObject.ramCharge, hk] at hsum ⊢
    push_cast at hsum ⊢
    split_ifs at hsum ⊢ <;> linarith
  · -- a new row, billed by `create_table_usage`
    ext p
    simp only [excessRam, footprint, updateDbUsage_accountRamDeltas, updateDbUsage_tables,
      updateDbUsage_rows, updateDbUsage_secondaryRows, List.map_append, List.sum_append,
      List.map_singleton, List.sum_singleton, KvObject.ramCharge]
    split_ifs <;> ring

theorem WF.kvSet (hlimits : limits.Fits) (hwf : db.WF) {contract : Name} {key value : List UInt8}
    {payer : Name} {delta : ℤ}
    (h : db.kvSet receiver limits contract key value payer = some (db', delta)) : db'.WF := by
  obtain ⟨-, hkey, hvalue, hcases⟩ := db.kvSet_eq_some receiver limits h
  have hfits : key.length + value.length < 2 ^ 32 := by
    unfold KvDatabaseConfig.Fits at hlimits
    omega
  rcases hcases with ⟨kv, hkv, hkvkey, hdb, -⟩ | ⟨hfresh, rfl, -⟩
  · subst hdb
    rw [kvUpdateTableUsage_fst]
    refine ⟨hwf.tableIds_nodup, hwf.tableId_lt, hwf.rows_nodup, hwf.secondaryRows_nodup, ?_, ?_⟩
    · rw [KeyedList.map_key_update KvObject.byKvKey (fun r : KvObject => { r with kvValue := value, payer })
        fun _ => rfl]
      exact hwf.kvRows_nodup
    · -- the updated row has the key of the call and the new value
      intro r hr
      obtain ⟨r₀, hr₀, rfl⟩ := List.mem_map.mp hr
      by_cases hr₀key : r₀.byKvKey = kv.byKvKey
      · rw [if_pos hr₀key]
        have hk : r₀.kvKey = key := (congrArg Prod.snd hr₀key).trans (congrArg Prod.snd hkvkey)
        simpa [hk] using hfits
      · rw [if_neg hr₀key]
        exact hwf.kvRows_fit r₀ hr₀
  · apply (hwf.updateDbUsage _ _).withKvRows
    · exact KeyedList.nodup_map_append_singleton _ hwf.kvRows_nodup hfresh
    · intro r hr
      rcases List.mem_append.mp hr with hr | hr
      · exact hwf.kvRows_fit r hr
      · rw [List.mem_singleton.mp hr]
        exact hfits

theorem kvErase_excessRam (hwf : db.WF) {contract : Name} {key : List UInt8} {delta : ℤ}
    (h : db.kvErase receiver contract key = some (db', delta)) : db'.excessRam = db.excessRam := by
  obtain ⟨-, ⟨-, rfl, -⟩ | ⟨kv, hkv, -, rfl, -⟩⟩ := db.kvErase_eq_some receiver h
  · rfl
  ext p
  -- the row with the key is removed alone, and its payer refunded its charge
  have hsum := KeyedList.sum_map_filter_key_ne KvObject.byKvKey (fun r : KvObject => r.ramCharge p)
    hwf.kvRows_nodup hkv
  simp only [excessRam, footprint, updateDbUsage_accountRamDeltas, updateDbUsage_tables,
    updateDbUsage_rows, updateDbUsage_secondaryRows]
  simp only [KvObject.ramCharge] at hsum ⊢
  split_ifs at hsum ⊢ <;> linarith

theorem WF.kvErase (hwf : db.WF) {contract : Name} {key : List UInt8} {delta : ℤ}
    (h : db.kvErase receiver contract key = some (db', delta)) : db'.WF := by
  obtain ⟨-, ⟨-, rfl, -⟩ | ⟨kv, -, -, rfl, -⟩⟩ := db.kvErase_eq_some receiver h
  · exact hwf
  exact (hwf.updateDbUsage _ _).withKvRows (KeyedList.nodup_map_filter _ hwf.kvRows_nodup _)
    fun r hr => hwf.kvRows_fit r (List.mem_filter.mp hr).1

/-- **No call changes the excess of any account.** -/
theorem call_excessRam (hlimits : limits.Fits) (hwf : db.WF) {c : StorageCall}
    (h : db.call receiver limits c = some db') : db'.excessRam = db.excessRam := by
  cases c with
  | dbStoreI64 => exact dbStoreI64_excessRam receiver h
  | dbUpdateI64 => exact dbUpdateI64_excessRam receiver hwf h
  | dbRemoveI64 => exact dbRemoveI64_excessRam receiver hwf h
  | secondaryStore => exact secondaryStore_excessRam receiver h
  | secondaryUpdate => exact secondaryUpdate_excessRam receiver hwf h
  | secondaryRemove => exact secondaryRemove_excessRam receiver hwf h
  | kvSet =>
    obtain ⟨⟨db'', delta⟩, hset, rfl⟩ := Option.map_eq_some_iff.mp h
    exact kvSet_excessRam receiver limits hlimits hwf hset
  | kvErase =>
    obtain ⟨⟨db'', delta⟩, herase, rfl⟩ := Option.map_eq_some_iff.mp h
    exact kvErase_excessRam receiver hwf herase

theorem WF.call (hlimits : limits.Fits) (hwf : db.WF) {c : StorageCall}
    (h : db.call receiver limits c = some db') : db'.WF := by
  cases c with
  | dbStoreI64 => exact hwf.dbStoreI64 receiver h
  | dbUpdateI64 => exact hwf.dbUpdateI64 receiver h
  | dbRemoveI64 => exact hwf.dbRemoveI64 receiver h
  | secondaryStore => exact hwf.secondaryStore receiver h
  | secondaryUpdate => exact hwf.secondaryUpdate receiver h
  | secondaryRemove => exact hwf.secondaryRemove receiver h
  | kvSet =>
    obtain ⟨⟨db'', delta⟩, hset, rfl⟩ := Option.map_eq_some_iff.mp h
    exact hwf.kvSet receiver limits hlimits hset
  | kvErase =>
    obtain ⟨⟨db'', delta⟩, herase, rfl⟩ := Option.map_eq_some_iff.mp h
    exact hwf.kvErase receiver herase

end Conservation

section Run

variable (limits : KvDatabaseConfig)

/-- **Over any sequence of calls, the invariant holds and no account's excess changes.** -/
theorem run_excessRam (hlimits : limits.Fits) (hwf : db.WF) {calls : List (Name × StorageCall)}
    (h : db.run limits calls = some db') : db'.WF ∧ db'.excessRam = db.excessRam :=
  PartialRun.foldlM_invariant (fun s => s.WF ∧ s.excessRam = db.excessRam)
    (fun _ hs c _ _ hstep =>
      ⟨hs.1.call c.1 limits hlimits hstep, (call_excessRam c.1 limits hlimits hs.1 hstep).trans hs.2⟩)
    ⟨hwf, rfl⟩ h

end Run

end ContractTables

end Eosio.Chain
