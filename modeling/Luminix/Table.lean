import Luminix.Types
import Luminix.Machine.KeyedList

/-!
# Record operations

The table functions of `database.c`: lookup, id generation, insertion, update, deletion and the
unlinking loop of `db_delete_records_by_field`.  A loop over the columns runs down the list of
columns and the array of values together; `List.headD` reads an entry the caller did not supply as a
zeroed field.

`counter` is the static `global_counter` of `generate_record_id`, `now` the clock reading of the
call.  The index structures hold no data: `index_insert_simple` and its siblings are stubs that
change nothing, and `index_search_simple` finds nothing.
-/

namespace Luminix

open CLib KeyedList

/-! ### Indexes -/

/-- The first column of that name, by `strcmp`. -/
def columnIndex (columns : List Column) (name : CString) : Option Nat :=
  columns.findIdx? fun c => c.name = name

def indexSearchSimple (_index : Index) (_key : Int) : Option Record := none

def indexInsertSimple (index : Index) (_key : Int) (_record : Record) : Index := index

def indexDeleteSimple (index : Index) (_key : Int) : Index := index

def indexUpdateSimple (index : Index) (oldKey newKey : Int) (record : Record) : Index :=
  indexInsertSimple (indexDeleteSimple index oldKey) newKey record

/-- `update_indexes_for_record`: the indexes of the table after the record is entered. -/
def updateIndexesForRecord (t : Table) (record : Record) (oldId : Int) : List Index :=
  t.indexes.map fun index =>
    match columnIndex t.columns index.fieldName with
    | none => index
    | some j =>
      let field := record.fields.getD j Field.zero
      if field.type = .int then
        if oldId ≠ -1 then indexUpdateSimple index oldId field.value.intValue record
        else indexInsertSimple index field.value.intValue record
      else index

/-- `remove_indexes_for_record`. -/
def removeIndexesForRecord (t : Table) (recordId : Int) : List Index :=
  t.indexes.map fun index => indexDeleteSimple index recordId

/-- Whether an update changed the indexed field, by the type the field had before. -/
def fieldChanged (old new : Field) : Bool :=
  match old.type with
  | .int => old.value.intValue != new.value.intValue
  | .string => old.value.stringValue != new.value.stringValue
  | .float => !binary32.ieeeEq old.value.floatBits new.value.floatBits
  | _ => true

/-- The last loop of `table_update_record`. -/
def reindexUpdatedRecord (t : Table) (old record : Record) : List Index :=
  t.indexes.map fun index =>
    match columnIndex t.columns index.fieldName with
    | none => index
    | some j =>
      let oldField := old.fields.getD j Field.zero
      let newField := record.fields.getD j Field.zero
      if fieldChanged oldField newField then
        let oldKey := if oldField.type = .int then oldField.value.intValue else 0
        let newKey := if oldField.type = .int then newField.value.intValue else 0
        if oldKey ≠ 0 || newKey ≠ 0 then indexUpdateSimple index oldKey newKey record else index
      else index

/-! ### Lookup -/

/-- The index loop of `table_find_record`: the first primary key index decides. -/
def findByIndex (t : Table) (id : Int) : List Index → Option Record
  | [] => none
  | index :: rest =>
    if index.fieldName = cstr "id" || (t.columns.head?.any fun c => c.constraint.primaryKey) then
      indexSearchSimple index id
    else findByIndex t id rest

/-- `table_find_record`. -/
def tableFindRecord (t : Table) (id : Int) : Option Record :=
  (findByIndex t id t.indexes).or (lookup Record.id t.records id)

/-! ### Insertion -/

/-- The scan of `generate_record_id`; ids below zero are never the maximum. -/
def maxRecordId (records : List Record) : Int :=
  records.foldl (fun m r => if r.id > m then r.id else m) 0

/-- `generate_record_id`, with the new value of the counter. -/
def generateRecordId (t : Table) (counter : Int) : Int × Int :=
  let next := intWrap (maxRecordId t.records + 1)
  if next > counter then (next, counter) else (counter, intWrap (counter + 1))

/-- A `TYPE_NULL` value for a column that is not nullable. -/
def nullViolation : List Column → List Field → Bool
  | [], _ => false
  | c :: cs, values =>
    (!c.constraint.nullable && (values.headD .zero).type == .null) || nullViolation cs values.tail

/-- The id the values supply: the first `TYPE_INT` value of a primary key column, else `-1`. -/
def explicitKey : List Column → List Field → Int
  | [], _ => -1
  | c :: cs, values =>
    if c.constraint.primaryKey && (values.headD .zero).type == .int then
      (values.headD .zero).value.intValue
    else explicitKey cs values.tail

/-- The copied fields: names and types are the columns', only the payload is the caller's. -/
def copyFields : List Column → List Field → List Field
  | [], _ => []
  | c :: cs, values =>
    ⟨c.name.truncate (maxFieldLen - 1), c.type, (values.headD .zero).value⟩ ::
      copyFields cs values.tail

/-- The checks `table_insert_record` makes before it chooses an id. -/
def insertCheck (t : Table) (values : List Field) : ErrorCode :=
  if maxRecordsPerTable ≤ t.recordCount then .tableFull
  else if (values.headD .zero).type = .unknown then .invalidInput
  else if nullViolation t.columns values then .constraintViolation
  else .success

/-- The id of the new record, and the counter. -/
def chooseRecordId (t : Table) (counter : Int) (values : List Field) : Int × Int :=
  if explicitKey t.columns values = -1 then generateRecordId t counter
  else (explicitKey t.columns values, counter)

/-- The record `table_insert_record` allocates. -/
def newRecord (t : Table) (id now : Int) (values : List Field) : Record where
  id := id
  fields := copyFields t.columns values
  fieldCount := t.fieldCount
  timestamp := now
  version := 1

/-- Linking the new record at the head of the list. -/
def linkRecord (t : Table) (id now : Int) (values : List Field) : Table :=
  { t with
    records := newRecord t id now values :: t.records
    recordCount := t.recordCount + 1
    nextRecordId := if t.nextRecordId ≤ id then intWrap (id + 1) else t.nextRecordId
    indexes := updateIndexesForRecord t (newRecord t id now values) (-1)
    statistics := { t.statistics with recordsInserted := t.statistics.recordsInserted + 1 } }

/-- `table_insert_record`; the result carries `*out_id` on success.  A null `values` is `none`. -/
def tableInsertRecord (t : Table) (counter now : Int) :
    Option (List Field) → Except ErrorCode Int × Table × Int
  | none => (.error .invalidInput, t, counter)
  | some values =>
    match insertCheck t values with
    | .success =>
      let (id, counter') := chooseRecordId t counter values
      if (tableFindRecord t id).isSome then (.error .duplicateKey, t, counter')
      else (.ok id, linkRecord t id now values, counter')
    | e => (.error e, t, counter)

/-! ### Update -/

/-- The id a new primary key value stands for; only a `TYPE_INT` value is read. -/
def newKey (f : Field) : Int := if f.type = .int then f.value.intValue else 0

/-- A new primary key value that belongs to another record. -/
def keyTaken (t : Table) (id : Int) (c : Column) (f : Field) : Bool :=
  c.constraint.primaryKey && f.type != .null && newKey f != id &&
    (tableFindRecord t (newKey f)).isSome

/-- Assigning one field: the type is kept when the new one is `TYPE_UNKNOWN`. -/
def assignField (old new : Field) : Field :=
  { old with value := new.value, type := if new.type ≠ .unknown then new.type else old.type }

/-- The field loop of `table_update_record`.  It writes as it goes: what is written before a refused
key stays written. -/
def updateFields (t : Table) (id : Int) :
    List Column → List Field → List Field → ErrorCode × List Field
  | [], _, olds => (.success, olds)
  | c :: cs, values, olds =>
    if keyTaken t id c (values.headD .zero) then (.duplicateKey, olds)
    else
      let rest := updateFields t id cs values.tail olds.tail
      (rest.1, assignField (olds.headD .zero) (values.headD .zero) :: rest.2)

/-- `table_update_record`. -/
def tableUpdateRecord (t : Table) (now id : Int) : Option (List Field) → ErrorCode × Table
  | none => (.invalidInput, t)
  | some values =>
    match tableFindRecord t id with
    | none => (.notFound, t)
    | some record =>
      let (code, fields) := updateFields t id t.columns values record.fields
      if code = .success then
        let updated :=
          { record with fields, timestamp := now, version := intWrap (record.version + 1) }
        (.success,
          { t with
            records := modify Record.id (fun _ => updated) t.records id
            indexes := reindexUpdatedRecord t record updated
            statistics := { t.statistics with recordsUpdated := t.statistics.recordsUpdated + 1 } })
      else
        (code, { t with records := modify Record.id (fun _ => { record with fields }) t.records id })

/-! ### Deletion -/

/-- `table_delete_record`. -/
def tableDeleteRecord (t : Table) (id : Int) : ErrorCode × Table :=
  if (lookup Record.id t.records id).isSome then
    (.success,
      { t with
        records := erase Record.id t.records id
        recordCount := t.recordCount - 1
        indexes := removeIndexesForRecord t id
        statistics := { t.statistics with recordsDeleted := t.statistics.recordsDeleted + 1 } })
  else (.notFound, t)

/-- The comparison of `db_delete_records_by_field`: the field against the bytes `value` points to,
both read as the given type. -/
def fieldMatches (type : FieldType) (value : List UInt8) (field : Field) : Bool :=
  match type with
  | .int => field.value.intValue == intOfBytes value
  | .string => field.value.stringValue == CString.ofBytes value
  | .float => binary32.ieeeEq field.value.floatBits (leNat (value.take 4))
  | .double => binary64.ieeeEq field.value.doubleBits (leNat (value.take 8))
  | .bool => field.value.boolValue == (value.headD 0 != 0)
  | _ => false

/-- The unlinking loop: the records that stay, and how many were freed. -/
def sweepRecords (matched : Record → Bool) : List Record → List Record × Int
  | [] => ([], 0)
  | r :: rs =>
    let rest := sweepRecords matched rs
    if matched r then (rest.1, rest.2 + 1) else (r :: rest.1, rest.2)

/-- The table after the loop; `table->statistics` is not touched. -/
def deleteMatching (t : Table) (matched : Record → Bool) : Table :=
  { t with
    records := (sweepRecords matched t.records).1
    recordCount := t.recordCount - (sweepRecords matched t.records).2 }

end Luminix
