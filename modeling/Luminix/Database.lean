import Luminix.Table

/-!
# Databases and transactions

The database functions of `database.c`.  A `Store` is a database together with the process-wide id
counter.  A `Table *` is an index into `db.tables`; a null argument is `none`.  Transactions are two
counters and nothing else: no function saves a table's records, so `db_rollback_transaction` has
nothing to restore them from.
-/

namespace Luminix

open CLib

/-! ### Transactions -/

/-- `db_begin_transaction`. -/
def dbBeginTransaction (db : Database) (now : Int) : ErrorCode × Database :=
  if db.transactionActive && maxTransactionLevel ≤ db.transactionLevel then
    (.transactionConflict, db)
  else
    let statistics :=
      { db.statistics with transactionsStarted := db.statistics.transactionsStarted + 1 }
    if db.transactionActive then
      (.success, { db with transactionLevel := db.transactionLevel + 1, statistics })
    else
      (.success, { db with
        transactionActive := true
        transactionLevel := 1
        transactionStartTime := now
        statistics })

/-- `db_commit_transaction`. -/
def dbCommitTransaction (db : Database) : ErrorCode × Database :=
  if !db.transactionActive then (.transactionConflict, db)
  else if 1 < db.transactionLevel then
    (.success, { db with transactionLevel := db.transactionLevel - 1 })
  else
    (.success, { db with
      transactionActive := false
      transactionLevel := 0
      statistics :=
        { db.statistics with transactionsCommitted := db.statistics.transactionsCommitted + 1 } })

/-- `db_rollback_transaction`: the comment says "Rollback all changes". -/
def dbRollbackTransaction (db : Database) : ErrorCode × Database :=
  if !db.transactionActive then (.transactionConflict, db)
  else
    (.success, { db with
      transactionActive := false
      transactionLevel := 0
      statistics :=
        { db.statistics with transactionsRolledBack := db.statistics.transactionsRolledBack + 1 } })

/-! ### Creating databases and tables -/

/-- `db_create`. -/
def dbCreate : Database where
  tables := []
  tableCapacity := 0
  transactionActive := false
  transactionLevel := 0
  transactionStartTime := 0
  statistics := ⟨0, 0, 0, 0, 0, 0⟩
  tables_le := Nat.zero_le _

/-- The constraints `db_add_table` sets: the first column is the primary key. -/
def defaultConstraint (i : Nat) : Constraint :=
  { nullable := true, unique := false, primaryKey := i == 0, foreignKey := false }

/-- The columns of a new table, numbered from `i`. -/
def newColumns : Nat → List (CString × FieldType) → List Column
  | _, [] => []
  | i, (name, type) :: rest => ⟨name, type, defaultConstraint i⟩ :: newColumns (i + 1) rest

@[simp] theorem length_newColumns (i : Nat) (l : List (CString × FieldType)) :
    (newColumns i l).length = l.length := by
  induction l generalizing i with
  | nil => rfl
  | cons a l ih => simp [newColumns, ih]

/-- The table `db_add_table` fills in; its name is cut to the size of the buffer. -/
def newTable (name : CString) (fields : List (CString × FieldType)) (hpos : 0 < fields.length)
    (hle : fields.length ≤ maxFieldsPerTable) : Table where
  name := name.truncate (maxTableName - 1)
  columns := newColumns 0 fields
  records := []
  recordCount := 0
  nextRecordId := 1
  indexes := []
  statistics := ⟨0, 0, 0⟩
  name_lt := Nat.lt_of_le_of_lt (CString.length_truncate_le _ _) (by decide)
  columns_pos := by simpa using hpos
  columns_le := by simpa using hle

/-- The names of `field_names`, if none of them is null. -/
def namedFields : List (Option CString × FieldType) → Option (List (CString × FieldType))
  | [] => some []
  | (none, _) :: _ => none
  | (some name, type) :: rest => (namedFields rest).map ((name, type) :: ·)

theorem length_namedFields {l : List (Option CString × FieldType)}
    {fields : List (CString × FieldType)} (h : namedFields l = some fields) :
    fields.length = l.length := by
  induction l generalizing fields with
  | nil => simp_all [namedFields]
  | cons a l ih =>
    obtain ⟨_ | name, type⟩ := a
    · simp [namedFields] at h
    · simp only [namedFields, Option.map_eq_some_iff] at h
      obtain ⟨rest, hrest, rfl⟩ := h
      simp [ih hrest]

/-- The capacity of the array of tables once one more fits. -/
def grownCapacity (db : Database) : Nat :=
  if db.tableCapacity ≤ db.tableCount then
    min (if db.tableCapacity = 0 then 4 else db.tableCapacity * 2) maxTables
  else db.tableCapacity

/-- `db_add_table`.  The new table is the last one.  A column without a name is handed to `strdup` as
a null pointer before anything looks at it, which ends the program. -/
def dbAddTable (db : Database) (name : Option CString)
    (fields : Option (List (Option CString × FieldType))) : ErrorCode × Database :=
  match name, fields with
  | some name, some fields =>
    if h : 0 < fields.length ∧ fields.length ≤ maxFieldsPerTable then
      if db.tables.any fun t => t.name = name then (.duplicateKey, db)
      else if hfull : db.tableCount < maxTables then
        let db := { db with tableCapacity := grownCapacity db }
        match hn : namedFields fields with
        | none => (.crash, db)
        | some named =>
          let table := newTable name named (length_namedFields hn ▸ h.1) (length_namedFields hn ▸ h.2)
          (.success, { db with
            tables := db.tables ++ [table]
            statistics := { db.statistics with tablesCreated := db.statistics.tablesCreated + 1 }
            tables_le := by
              simp only [Database.tableCount] at hfull
              simpa using hfull })
      else (.tableFull, db)
    else (.invalidInput, db)
  | _, _ => (.invalidInput, db)

/-- Replacing the constraints of the columns, as far as both lists go. -/
def applyConstraints : List Column → List Constraint → List Column
  | c :: cs, k :: ks => { c with constraint := k } :: applyConstraints cs ks
  | cs, _ => cs

@[simp] theorem length_applyConstraints (cs : List Column) (ks : List Constraint) :
    (applyConstraints cs ks).length = cs.length := by
  induction cs generalizing ks with
  | nil => cases ks <;> rfl
  | cons c cs ih => cases ks <;> simp [applyConstraints, ih]

/-- A table with other constraints. -/
def Table.withConstraints (t : Table) (ks : List Constraint) : Table :=
  { t with
    columns := applyConstraints t.columns ks
    columns_pos := by simpa using t.columns_pos
    columns_le := by simpa using t.columns_le }

/-- The last steps of `create_table_interactive`: the table is added, then given its constraints. -/
def createTableInteractive (db : Database) (name : CString)
    (fields : List (CString × FieldType)) (constraints : List Constraint) : ErrorCode × Database :=
  match dbAddTable db (some name) (some (fields.map fun f => (some f.1, f.2))) with
  | (.success, db') =>
    match db'.tables[db.tableCount]? with
    | some t => (.success, db'.setTable db.tableCount (t.withConstraints constraints))
    | none => (.success, db')
  | r => r

/-- `db_get_table`: the position of the first table of that name. -/
def dbGetTable (db : Database) (name : CString) : Option Nat :=
  db.tables.findIdx? fun t => t.name = name

/-! ### Indexes -/

/-- `find_index_in_manager`. -/
def findIndexInManager (indexes : List Index) (tableName fieldName : CString) : Option Index :=
  indexes.find? fun index => index.tableName = tableName && index.fieldName = fieldName

/-- `create_simple_index`. -/
def createSimpleIndex (tableName fieldName : CString) (type : IndexType) : Index :=
  ⟨tableName.truncate (maxTableName - 1), fieldName.truncate (maxFieldLen - 1), type⟩

/-- Entering the existing records into a new index. -/
def populateIndex (j : Nat) (index : Index) (records : List Record) : Index :=
  records.foldl (fun index r =>
    let field := r.fields.getD j Field.zero
    if field.type = .int ∧ field.value.intValue ≠ 0 then
      indexInsertSimple index field.value.intValue r
    else index) index

/-- `db_create_index`. -/
def dbCreateIndex (db : Database) (tableName fieldName : Option CString) (type : IndexType) :
    ErrorCode × Database :=
  match tableName, fieldName with
  | some tableName, some fieldName =>
    match dbGetTable db tableName with
    | none => (.notFound, db)
    | some i =>
      match db.tables[i]? with
      | none => (.notFound, db)
      | some t =>
        match columnIndex t.columns fieldName with
        | none => (.notFound, db)
        | some j =>
          if (findIndexInManager t.indexes tableName fieldName).isSome then (.indexExists, db)
          else if maxIndexesPerTable ≤ t.indexes.length then (.tableFull, db)
          else
            let index := populateIndex j (createSimpleIndex tableName fieldName type) t.records
            let db := db.setTable i { t with indexes := t.indexes ++ [index] }
            (.success, { db with statistics :=
              { db.statistics with indexesCreated := db.statistics.indexesCreated + 1 } })
  | _, _ => (.invalidInput, db)

/-- `db_drop_index`. -/
def dbDropIndex (db : Database) (tableName fieldName : Option CString) : ErrorCode × Database :=
  match tableName, fieldName with
  | some tableName, some fieldName =>
    match dbGetTable db tableName with
    | none => (.notFound, db)
    | some i =>
      match db.tables[i]? with
      | none => (.notFound, db)
      | some t =>
        if (findIndexInManager t.indexes tableName fieldName).isSome then
          let indexes := t.indexes.eraseP fun index =>
            index.tableName = tableName && index.fieldName = fieldName
          let db := db.setTable i { t with indexes }
          (.success, { db with statistics :=
            { db.statistics with indexesDropped := db.statistics.indexesDropped + 1 } })
        else (.notFound, db)
  | _, _ => (.invalidInput, db)

/-! ### Data operations -/

/-- A database and the static counter of `generate_record_id`. -/
structure Store where
  db : Database
  globalCounter : Int
  deriving DecidableEq

/-- The bracket `db_insert_record`, `db_update_record` and `db_delete_record` put around a table
operation: a transaction of their own unless one is active. -/
def withLocalTransaction {α : Type} (s : Store) (now : Int) (failed : ErrorCode → α)
    (succeeded : α → Bool) (body : Store → α × Store) : α × Store :=
  if s.db.transactionActive then body s
  else
    match dbBeginTransaction s.db now with
    | (.success, db) =>
      let (result, s') := body { s with db }
      if succeeded result then (result, { s' with db := (dbCommitTransaction s'.db).2 })
      else (result, { s' with db := (dbRollbackTransaction s'.db).2 })
    | (code, _) => (failed code, s)

/-- `table_insert_record` on the `i`-th table. -/
def Store.insertInto (s : Store) (i : Nat) (now : Int) (values : Option (List Field)) :
    Except ErrorCode Int × Store :=
  match s.db.tables[i]? with
  | none => (.error .invalidInput, s)
  | some t =>
    let (result, t', counter) := tableInsertRecord t s.globalCounter now values
    (result, { db := s.db.setTable i t', globalCounter := counter })

/-- `table_update_record` on the `i`-th table. -/
def Store.updateIn (s : Store) (i : Nat) (now id : Int) (values : Option (List Field)) :
    ErrorCode × Store :=
  match s.db.tables[i]? with
  | none => (.invalidInput, s)
  | some t =>
    let (code, t') := tableUpdateRecord t now id values
    (code, { s with db := s.db.setTable i t' })

/-- `table_delete_record` on the `i`-th table. -/
def Store.deleteFrom (s : Store) (i : Nat) (id : Int) : ErrorCode × Store :=
  match s.db.tables[i]? with
  | none => (.invalidInput, s)
  | some t =>
    let (code, t') := tableDeleteRecord t id
    (code, { s with db := s.db.setTable i t' })

/-- `db_insert_record`. -/
def dbInsertRecord (s : Store) (now : Int) (tableName : Option CString)
    (values : Option (List Field)) : Except ErrorCode Int × Store :=
  match tableName, values with
  | some tableName, some values =>
    match dbGetTable s.db tableName with
    | none => (.error .notFound, s)
    | some i =>
      withLocalTransaction s now .error (fun r => r.isOk) fun s =>
        s.insertInto i now (some values)
  | _, _ => (.error .invalidInput, s)

/-- `db_update_record`. -/
def dbUpdateRecord (s : Store) (now : Int) (tableName : Option CString) (id : Int)
    (values : Option (List Field)) : ErrorCode × Store :=
  match tableName, values with
  | some tableName, some values =>
    match dbGetTable s.db tableName with
    | none => (.notFound, s)
    | some i =>
      withLocalTransaction s now (fun code => code) (· = .success) fun s =>
        s.updateIn i now id (some values)
  | _, _ => (.invalidInput, s)

/-- `db_delete_record`. -/
def dbDeleteRecord (s : Store) (now : Int) (tableName : Option CString) (id : Int) :
    ErrorCode × Store :=
  match tableName with
  | some tableName =>
    match dbGetTable s.db tableName with
    | none => (.notFound, s)
    | some i =>
      withLocalTransaction s now (fun code => code) (· = .success) fun s => s.deleteFrom i id
  | none => (.invalidInput, s)

/-- The insertion loop of `db_batch_insert_records`: it stops at the first row that fails. -/
def insertRows (i : Nat) (now : Int) : Store → List (Option (List Field)) →
    Except ErrorCode (List Int) × Store
  | s, [] => (.ok [], s)
  | s, row :: rows =>
    match s.insertInto i now row with
    | (.error e, s') => (.error e, s')
    | (.ok id, s') =>
      match insertRows i now s' rows with
      | (.error e, s'') => (.error e, s'')
      | (.ok ids, s'') => (.ok (id :: ids), s'')

/-- `db_batch_insert_records`; `rows` is `values_array` with its `count` entries. -/
def dbBatchInsertRecords (s : Store) (now : Int) (tableName : Option CString)
    (rows : Option (List (Option (List Field)))) : Except ErrorCode (List Int) × Store :=
  match tableName, rows with
  | some tableName, some rows =>
    if rows.length < 1 ∨ batchInsertSize < rows.length then (.error .invalidInput, s)
    else
      match dbGetTable s.db tableName with
      | none => (.error .notFound, s)
      | some i =>
        match s.db.tables[i]? with
        | none => (.error .notFound, s)
        | some t =>
          if maxRecordsPerTable < t.recordCount + rows.length then (.error .tableFull, s)
          else
            match dbBeginTransaction s.db now with
            | (.success, db) =>
              match insertRows i now { s with db } rows with
              | (.ok ids, s') => (.ok ids, { s' with db := (dbCommitTransaction s'.db).2 })
              | (.error e, s') => (.error e, { s' with db := (dbRollbackTransaction s'.db).2 })
            | (code, _) => (.error code, s)
  | _, _ => (.error .invalidInput, s)

/-- The records that `db_delete_records_by_field` frees and `db_find_all_records_by_field` collects:
the column's type decides how both sides are read. -/
def recordMatches (t : Table) (j : Nat) (value : List UInt8) (r : Record) : Bool :=
  fieldMatches ((t.columns[j]?.map (·.type)).getD .unknown) value (r.fields.getD j Field.zero)

/-- `db_delete_records_by_field`; the result carries `*out_count`. -/
def dbDeleteRecordsByField (s : Store) (now : Int) (tableName fieldName : Option CString)
    (value : Option (List UInt8)) : Except ErrorCode Int × Store :=
  match tableName, fieldName, value with
  | some tableName, some fieldName, some value =>
    match dbGetTable s.db tableName with
    | none => (.error .notFound, s)
    | some i =>
      match s.db.tables[i]? with
      | none => (.error .notFound, s)
      | some t =>
        match columnIndex t.columns fieldName with
        | none => (.error .notFound, s)
        | some j =>
          match dbBeginTransaction s.db now with
          | (.success, db) =>
            let matched := recordMatches t j value
            let deleted := (sweepRecords matched t.records).2
            let db := db.setTable i (deleteMatching t matched)
            if 0 < deleted then (.ok deleted, { s with db := (dbCommitTransaction db).2 })
            else (.ok 0, { s with db := (dbRollbackTransaction db).2 })
          | (code, _) => (.error code, s)
  | _, _, _ => (.error .invalidInput, s)

/-! ### Lookup by field -/

/-- The records `db_find_record_by_field` finds in its linear search: the tag of the stored value
decides how both sides are read. -/
def fieldFound (j : Nat) (value : List UInt8) (r : Record) : Bool :=
  let field := r.fields.getD j Field.zero
  fieldMatches field.type value field

/-- The record that the index of the field gives for an `INT` key other than zero. -/
def findByFieldIndex (t : Table) (tableName fieldName : CString) (j : Nat) (value : List UInt8) :
    Option Record :=
  match findIndexInManager t.indexes tableName fieldName with
  | none => none
  | some index =>
    let key := if (t.columns[j]?.map (·.type)).getD .unknown = .int then intOfBytes value else 0
    if key ≠ 0 then indexSearchSimple index key else none

/-- `db_find_record_by_field`; `value` are the bytes the pointer leads to. -/
def dbFindRecordByField (db : Database) (tableName fieldName : Option CString)
    (value : Option (List UInt8)) : Option Record :=
  match tableName, fieldName, value with
  | some tableName, some fieldName, some value =>
    match (dbGetTable db tableName).bind fun i => db.tables[i]? with
    | none => none
    | some t =>
      match columnIndex t.columns fieldName with
      | none => none
      | some j =>
        (findByFieldIndex t tableName fieldName j value).or (t.records.find? (fieldFound j value))
  | _, _, _ => none

/-- The search loop of `db_find_all_records_by_field`: the array it fills, and how far. -/
def collectRecords (matched : Record → Bool) : List Record → List Record × Int
  | [] => ([], 0)
  | r :: rs =>
    let rest := collectRecords matched rs
    if matched r then (r :: rest.1, rest.2 + 1) else rest

/-- `db_find_all_records_by_field`: the array, which is null when it would be empty, and what is
written to `*out_count`. -/
def dbFindAllRecordsByField (db : Database) (tableName fieldName : Option CString)
    (value : Option (List UInt8)) : Option (List Record) × Option Int :=
  match tableName, fieldName, value with
  | some tableName, some fieldName, some value =>
    match (dbGetTable db tableName).bind fun i => db.tables[i]? with
    | none => (none, some 0)
    | some t =>
      match columnIndex t.columns fieldName with
      | none => (none, some 0)
      | some j =>
        let (results, count) := collectRecords (recordMatches t j value) t.records
        if 0 < count then (some results, some count) else (none, some count)
  | _, _, _ => (none, none)

end Luminix
