import Mathlib
import TaurusNode.Chain.Authority
import TaurusNode.Lib.KeyedList

/-!
# Contract tables and their RAM billing

A model of the storage a contract writes from an action and of what it is billed
for it (libraries/chain/apply_context.cpp, apply_context.hpp and
backing_store/kv_context.cpp):

* the legacy tables: a `table_id_object` per `(code, scope, table)`, created by
  the first row stored in it and billed to that row's payer, holding
  `key_value_object` rows (`db_*_i64`) and the objects of the secondary
  indices (`generic_index`), and removed with the last of them;
* the key-value store: `kv_object` rows under `(contract, key)` (`kv_set`,
  `kv_erase`).

Every change of a row bills its payer through `update_db_usage`, which adds to
`_account_ram_deltas`. The model keeps those deltas per account
(`accountRamDeltas`) and leaves out the authorization checks of
`update_db_usage`, which can only make a call throw.

A row is addressed by its unique index key: an iterator handle of the source
stands for the row it denotes, and a call on a handle of no row throws.
Byte counts are natural numbers and deltas integers, except where the source
adds `uint32_t` sizes: `update_table_usage` of the key-value store adds the key
and value sizes in 32 bits.
-/

namespace Eosio.Chain

/-- `config::overhead_per_row_per_index_ram_bytes`. -/
def overheadPerRowPerIndexRamBytes : ℕ := 32

/-- `billable_size_v<table_id_object>`: constant fields and two indices. -/
def tableIdObjectBillableSize : ℕ := 44 + overheadPerRowPerIndexRamBytes * 2

/-- `billable_size_v<key_value_object>`: constant fields, the value's pointer and size, and two
indices. -/
def keyValueObjectBillableSize : ℕ := 32 + 8 + 4 + overheadPerRowPerIndexRamBytes * 2

/-- `billable_size_v<kv_object>`: constant fields, two blobs, and two indices. -/
def kvObjectBillableSize : ℕ := 24 + (8 + 4) * 2 + overheadPerRowPerIndexRamBytes * 2

/-- The secondary indices of a legacy table. -/
inductive SecondaryIndex
  | index64
  | index128
  | index256
  | indexDouble
  | indexLongDouble
deriving DecidableEq, Repr

/-- `billable_size_v` of the objects of a secondary index: fixed fields, the secondary key, and
three indices. -/
def SecondaryIndex.billableSize : SecondaryIndex → ℕ
  | .index64 => 24 + 8 + overheadPerRowPerIndexRamBytes * 3
  | .index128 => 24 + 16 + overheadPerRowPerIndexRamBytes * 3
  | .index256 => 24 + 32 + overheadPerRowPerIndexRamBytes * 3
  | .indexDouble => 24 + 8 + overheadPerRowPerIndexRamBytes * 3
  | .indexLongDouble => 24 + 16 + overheadPerRowPerIndexRamBytes * 3

/-- `table_id_object`. -/
structure TableIdObject where
  id : ℕ
  code : Name
  scope : Name
  table : Name
  payer : Name
  /-- The number of rows of the table, primary and secondary together. -/
  count : UInt32
deriving DecidableEq, Repr

/-- `key_value_object`. -/
structure KeyValueObject where
  tId : ℕ
  primaryKey : UInt64
  payer : Name
  value : List UInt8
deriving DecidableEq, Repr

/-- The key of the unique index `by_scope_primary`. -/
def KeyValueObject.byScopePrimary (obj : KeyValueObject) : ℕ × UInt64 :=
  (obj.tId, obj.primaryKey)

/-- An object of a secondary index. The secondary key is left out: its size is fixed by the
index, and the billing reads nothing else of it. -/
structure SecondaryObject where
  index : SecondaryIndex
  tId : ℕ
  primaryKey : UInt64
  payer : Name
deriving DecidableEq, Repr

/-- The key of the unique index `by_primary` of each secondary index. -/
def SecondaryObject.byPrimary (obj : SecondaryObject) : SecondaryIndex × ℕ × UInt64 :=
  (obj.index, obj.tId, obj.primaryKey)

/-- `kv_object`. -/
structure KvObject where
  contract : Name
  kvKey : List UInt8
  kvValue : List UInt8
  payer : Name
deriving DecidableEq, Repr

/-- The key of the unique index `by_kv_key`. -/
def KvObject.byKvKey (obj : KvObject) : Name × List UInt8 :=
  (obj.contract, obj.kvKey)

/-- `kv_database_config`: the size limits of the key-value store. -/
structure KvDatabaseConfig where
  maxKeySize : UInt32
  maxValueSize : UInt32
deriving DecidableEq, Repr

/-- The objects a contract writes, and the RAM deltas of the accounts. -/
structure ContractTables where
  tables : List TableIdObject
  /-- The id the next `table_id_object` gets. -/
  nextTableId : ℕ
  rows : List KeyValueObject
  secondaryRows : List SecondaryObject
  kvRows : List KvObject
  accountRamDeltas : Name → ℤ

namespace ContractTables

variable (db : ContractTables)

/-- `update_db_usage(payer, delta)`: `add_ram_usage`. -/
def updateDbUsage (payer : Name) (delta : ℤ) : ContractTables :=
  { db with
    accountRamDeltas := Function.update db.accountRamDeltas payer (db.accountRamDeltas payer + delta) }

/-- The table with this id (`get_table`). -/
def getTable (tId : ℕ) : Option TableIdObject :=
  db.tables.find? fun t => t.id = tId

/-- `find_or_create_table(code, scope, table, payer)`: a new table is billed to the payer. -/
def findOrCreateTable (code scope table payer : Name) : ContractTables × TableIdObject :=
  match db.tables.find? fun t => t.code = code ∧ t.scope = scope ∧ t.table = table with
  | some t => (db, t)
  | none =>
    let t : TableIdObject := ⟨db.nextTableId, code, scope, table, payer, 0⟩
    ({ db.updateDbUsage payer tableIdObjectBillableSize with
        tables := db.tables ++ [t]
        nextTableId := db.nextTableId + 1 }, t)

/-- `remove_table(tid)`: the table's payer gets its table back. -/
def removeTable (tid : TableIdObject) : ContractTables :=
  { db.updateDbUsage tid.payer (-tableIdObjectBillableSize) with
    tables := db.tables.filter fun t => t.id ≠ tid.id }

/-- `db.modify(table_obj, ...)` on the count of a table. -/
def modifyCount (tId : ℕ) (f : UInt32 → UInt32) : ContractTables :=
  { db with tables := db.tables.map fun t => if t.id = tId then { t with count := f t.count } else t }

/-- After a row of table `tId` is removed: `if (table_obj.count == 0) remove_table(table_obj)`. -/
def removeTableIfEmpty (tId : ℕ) : ContractTables :=
  match db.getTable tId with
  | some t => if t.count = 0 then db.removeTable t else db
  | none => db

variable (receiver : Name)

/-! ### The primary index: `db_*_i64` -/

/-- `db_store_i64(scope, table, payer, id, buffer)`. -/
def dbStoreI64 (scope table payer : Name) (id : UInt64) (buffer : List UInt8) :
    Option ContractTables :=
  let created := db.findOrCreateTable receiver scope table payer
  let db := created.1
  let tab := created.2
  -- "must specify a valid account to pay for new record"
  if payer = Name.empty then none
  -- the unique index `by_scope_primary`
  else if (db.rows.find? fun r => r.byScopePrimary = (tab.id, id)).isSome then none
  else
    let obj : KeyValueObject := ⟨tab.id, id, payer, buffer⟩
    let db := { db with rows := db.rows ++ [obj] }
    let db := db.modifyCount tab.id (· + 1)
    some (db.updateDbUsage payer (buffer.length + keyValueObjectBillableSize))

/-- `db_update_i64(iterator, payer, buffer)` on the row with key `(tId, primaryKey)`. -/
def dbUpdateI64 (tId : ℕ) (primaryKey : UInt64) (payer : Name) (buffer : List UInt8) :
    Option ContractTables :=
  match db.rows.find? fun r => r.byScopePrimary = (tId, primaryKey) with
  | none => none
  | some obj =>
    match db.getTable obj.tId with
    | none => none
    | some tableObj =>
      -- "db access violation"
      if tableObj.code ≠ receiver then none
      else
        let oldSize : ℤ := obj.value.length + keyValueObjectBillableSize
        let newSize : ℤ := buffer.length + keyValueObjectBillableSize
        let payer := if payer = Name.empty then obj.payer else payer
        let db :=
          -- refund the existing payer and charge the new one
          if obj.payer ≠ payer then (db.updateDbUsage obj.payer (-oldSize)).updateDbUsage payer newSize
          -- charge or refund the existing payer the difference
          else if oldSize ≠ newSize then db.updateDbUsage obj.payer (newSize - oldSize)
          else db
        some { db with rows := db.rows.map fun r =>
          if r.byScopePrimary = obj.byScopePrimary then { r with value := buffer, payer } else r }

/-- `db_remove_i64(iterator)` on the row with key `(tId, primaryKey)`. -/
def dbRemoveI64 (tId : ℕ) (primaryKey : UInt64) : Option ContractTables :=
  match db.rows.find? fun r => r.byScopePrimary = (tId, primaryKey) with
  | none => none
  | some obj =>
    match db.getTable obj.tId with
    | none => none
    | some tableObj =>
      if tableObj.code ≠ receiver then none
      else
        let db := db.updateDbUsage obj.payer (-(obj.value.length + keyValueObjectBillableSize))
        let db := db.modifyCount obj.tId (· - 1)
        let db := { db with rows := db.rows.filter fun r => r.byScopePrimary ≠ obj.byScopePrimary }
        some (db.removeTableIfEmpty obj.tId)

/-! ### The secondary indices: `generic_index` -/

/-- `generic_index::store(scope, table, payer, id, secondary)`. -/
def secondaryStore (index : SecondaryIndex) (scope table payer : Name) (id : UInt64) :
    Option ContractTables :=
  -- "must specify a valid account to pay for new record"
  if payer = Name.empty then none
  else
    let created := db.findOrCreateTable receiver scope table payer
    let db := created.1
    let tab := created.2
    -- the unique index `by_primary`
    if (db.secondaryRows.find? fun r => r.byPrimary = (index, tab.id, id)).isSome then none
    else
      let obj : SecondaryObject := ⟨index, tab.id, id, payer⟩
      let db := { db with secondaryRows := db.secondaryRows ++ [obj] }
      let db := db.modifyCount tab.id (· + 1)
      some (db.updateDbUsage payer index.billableSize)

/-- `generic_index::remove(iterator)` on the object with key `(index, tId, primaryKey)`. -/
def secondaryRemove (index : SecondaryIndex) (tId : ℕ) (primaryKey : UInt64) :
    Option ContractTables :=
  match db.secondaryRows.find? fun r => r.byPrimary = (index, tId, primaryKey) with
  | none => none
  | some obj =>
    match db.getTable obj.tId with
    | none => none
    | some tableObj =>
      if tableObj.code ≠ receiver then none
      else
        let db := db.updateDbUsage obj.payer (-index.billableSize)
        let db := db.modifyCount obj.tId (· - 1)
        let db := { db with secondaryRows := db.secondaryRows.filter fun r =>
          r.byPrimary ≠ obj.byPrimary }
        some (db.removeTableIfEmpty obj.tId)

/-- `generic_index::update(iterator, payer, secondary)`: only a change of payer is billed. -/
def secondaryUpdate (index : SecondaryIndex) (tId : ℕ) (primaryKey : UInt64) (payer : Name) :
    Option ContractTables :=
  match db.secondaryRows.find? fun r => r.byPrimary = (index, tId, primaryKey) with
  | none => none
  | some obj =>
    match db.getTable obj.tId with
    | none => none
    | some tableObj =>
      if tableObj.code ≠ receiver then none
      else
        let payer := if payer = Name.empty then obj.payer else payer
        let billingSize : ℤ := index.billableSize
        let db :=
          if obj.payer ≠ payer then (db.updateDbUsage obj.payer (-billingSize)).updateDbUsage payer billingSize
          else db
        some { db with secondaryRows := db.secondaryRows.map fun r =>
          if r.byPrimary = obj.byPrimary then { r with payer } else r }

/-! ### The key-value store -/

/-- `kv_context::update_table_usage`: the old and new sizes are sums of `uint32_t`s. -/
def kvUpdateTableUsage (oldPayer newPayer : Name) (keySize oldValueSize newValueSize : UInt32) :
    ContractTables × ℤ :=
  let oldSize : ℤ := (keySize + oldValueSize).toNat
  let newSize : ℤ := (keySize + newValueSize).toNat
  let resourceDelta := newSize - oldSize
  if oldPayer ≠ newPayer then
    -- refund the existing payer, and charge the new payer the full amount
    ((db.updateDbUsage oldPayer (-(oldSize + kvObjectBillableSize))).updateDbUsage newPayer
      (newSize + kvObjectBillableSize), resourceDelta)
  else if oldSize ≠ newSize then (db.updateDbUsage newPayer resourceDelta, resourceDelta)
  else (db, resourceDelta)

/-- `kv_context::kv_set(contract, key, value, payer)`, with the RAM delta it returns. -/
def kvSet (limits : KvDatabaseConfig) (contract : Name) (key value : List UInt8) (payer : Name) :
    Option (ContractTables × ℤ) :=
  -- "Can not write to this key"
  if contract ≠ receiver then none
  -- "Key too large", "Value too large"
  else if key.length > limits.maxKeySize.toNat then none
  else if value.length > limits.maxValueSize.toNat then none
  else
    match db.kvRows.find? fun kv => kv.byKvKey = (contract, key) with
    | some kv =>
      let usage := db.kvUpdateTableUsage kv.payer payer key.length.toUInt32
        kv.kvValue.length.toUInt32 value.length.toUInt32
      some ({ usage.1 with kvRows := usage.1.kvRows.map fun r =>
        if r.byKvKey = kv.byKvKey then { r with kvValue := value, payer } else r }, usage.2)
    | none =>
      -- `create_table_usage`
      let resourceDelta : ℤ := kvObjectBillableSize + key.length + value.length
      some ({ db.updateDbUsage payer resourceDelta with
        kvRows := db.kvRows ++ [⟨contract, key, value, payer⟩] }, resourceDelta)

/-- `kv_context::kv_erase(contract, key)`, with the RAM delta it returns. -/
def kvErase (contract : Name) (key : List UInt8) : Option (ContractTables × ℤ) :=
  if contract ≠ receiver then none
  else
    match db.kvRows.find? fun kv => kv.byKvKey = (contract, key) with
    | none => some (db, 0)
    | some kv =>
      -- `erase_table_usage`
      let resourceDelta : ℤ := -(kvObjectBillableSize + kv.kvKey.length + kv.kvValue.length)
      some ({ db.updateDbUsage kv.payer resourceDelta with
        kvRows := db.kvRows.filter fun r => r.byKvKey ≠ kv.byKvKey }, resourceDelta)

end ContractTables

/-- The calls of a contract on its storage. -/
inductive StorageCall
  | dbStoreI64 (scope table payer : Name) (id : UInt64) (buffer : List UInt8)
  | dbUpdateI64 (tId : ℕ) (primaryKey : UInt64) (payer : Name) (buffer : List UInt8)
  | dbRemoveI64 (tId : ℕ) (primaryKey : UInt64)
  | secondaryStore (index : SecondaryIndex) (scope table payer : Name) (id : UInt64)
  | secondaryUpdate (index : SecondaryIndex) (tId : ℕ) (primaryKey : UInt64) (payer : Name)
  | secondaryRemove (index : SecondaryIndex) (tId : ℕ) (primaryKey : UInt64)
  | kvSet (contract : Name) (key value : List UInt8) (payer : Name)
  | kvErase (contract : Name) (key : List UInt8)

namespace ContractTables

variable (receiver : Name) (limits : KvDatabaseConfig)

/-- One call by the contract `receiver`; `none` where the source throws. -/
def call (db : ContractTables) : StorageCall → Option ContractTables
  | .dbStoreI64 scope table payer id buffer => db.dbStoreI64 receiver scope table payer id buffer
  | .dbUpdateI64 tId primaryKey payer buffer => db.dbUpdateI64 receiver tId primaryKey payer buffer
  | .dbRemoveI64 tId primaryKey => db.dbRemoveI64 receiver tId primaryKey
  | .secondaryStore index scope table payer id => db.secondaryStore receiver index scope table payer id
  | .secondaryUpdate index tId primaryKey payer =>
    db.secondaryUpdate receiver index tId primaryKey payer
  | .secondaryRemove index tId primaryKey => db.secondaryRemove receiver index tId primaryKey
  | .kvSet contract key value payer =>
    (db.kvSet receiver limits contract key value payer).map Prod.fst
  | .kvErase contract key => (db.kvErase receiver contract key).map Prod.fst

/-- A sequence of calls, each by the contract it names, none of which throws. The deltas of all of
them add up, as `transaction_context::add_ram_usage` adds those of every action. -/
def run (db : ContractTables) (calls : List (Name × StorageCall)) : Option ContractTables :=
  calls.foldlM (fun db c => db.call c.1 limits c.2) db

end ContractTables

end Eosio.Chain
