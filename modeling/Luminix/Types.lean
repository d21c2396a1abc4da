import Luminix.CLib.Float

/-!
# The data model

The records of `database.h` and the enumerations of `types.h`.  A field's value is the C union:
256 bytes that the members `int_value`, `string_value`, `float_value`, `double_value` and
`bool_value` share, so that a value stored through one member and read through another comes out as
it does in memory.  The three parallel arrays of a table (`field_names`, `field_types`,
`constraints`) are one list of columns.
-/

namespace Luminix

open CLib

/-! ### Limits of `config.h` and `types.h` -/

def maxFieldLen : Nat := 256
def maxTableName : Nat := 64
def maxTables : Nat := 100
def maxRecordsPerTable : Int := 10000
def maxFieldsPerTable : Nat := 50
def maxIndexesPerTable : Nat := 10
def batchInsertSize : Nat := 100
def maxTransactionLevel : Nat := 10

/-! ### Enumerations -/

/-- The failures of `ErrorCode`, and `SUCCESS`.  The last one, `crash`, is no code of the source: it
stands for a call that does not return, since it hands a null pointer to a function of the C library
that reads from it.  Such a call ends the program. -/
inductive ErrorCode
  | success | notFound | duplicateKey | memoryAllocation | invalidParameter | tableFull
  | transactionConflict | typeMismatch | constraintViolation | indexExists | notImplemented
  | generic | invalidInput | ioOperation | permissionDenied | corruptData | indexNotFound
  | deadlockDetected | timeout
  | crash
  deriving DecidableEq, Repr

/-- `FieldType`. -/
inductive FieldType
  | unknown | int | string | float | double | bool | datetime | blob | null
  deriving DecidableEq, Repr

/-- `IndexType`. -/
inductive IndexType
  | none | hash | btree | skiplist | bitmap | fulltext
  deriving DecidableEq, Repr

/-! ### The value union -/

/-- The bytes of a `FieldValue`. -/
structure FieldValue where
  bytes : List UInt8
  size_eq : bytes.length = maxFieldLen
  deriving DecidableEq

namespace FieldValue

@[ext] theorem ext {v w : FieldValue} (h : v.bytes = w.bytes) : v = w := by
  cases v; cases w; simpa using h

/-- A zeroed union. -/
def zero : FieldValue := ⟨List.replicate maxFieldLen 0, List.length_replicate⟩

instance : Inhabited FieldValue := ⟨zero⟩

/-- Storing a member overwrites the first bytes and keeps the others. -/
def store (v : FieldValue) (bs : List UInt8) : FieldValue where
  bytes := (bs ++ v.bytes.drop bs.length).take maxFieldLen
  size_eq := by simp [v.size_eq]; omega

/-- Reading `int_value`. -/
def intValue (v : FieldValue) : Int := intOfBytes v.bytes

/-- `int_value = n`. -/
def setInt (v : FieldValue) (n : Int) : FieldValue := v.store (intBytes n)

/-- Reading `string_value` as a C string. -/
def stringValue (v : FieldValue) : CString := CString.ofBytes v.bytes

/-- `strncpy (string_value, s, MAX_FIELD_LEN - 1)`, which pads with NULs, and the terminator. -/
def setString (v : FieldValue) (s : CString) : FieldValue :=
  let t := s.bytes.take (maxFieldLen - 1)
  v.store (t ++ List.replicate (maxFieldLen - t.length) 0)

/-- Reading `bool_value`: a nonzero byte is true. -/
def boolValue (v : FieldValue) : Bool := v.bytes.headD 0 != 0

/-- `bool_value = b`. -/
def setBool (v : FieldValue) (b : Bool) : FieldValue := v.store [if b then 1 else 0]

/-- The bits of `float_value`. -/
def floatBits (v : FieldValue) : Nat := leNat (v.bytes.take 4)

def setFloatBits (v : FieldValue) (bits : Nat) : FieldValue := v.store (leBytes 4 bits)

/-- The bits of `double_value`. -/
def doubleBits (v : FieldValue) : Nat := leNat (v.bytes.take 8)

def setDoubleBits (v : FieldValue) (bits : Nat) : FieldValue := v.store (leBytes 8 bits)

/-- The `time_t` that `memcpy` reads from the union. -/
def timeValue (v : FieldValue) : Int := (leNat (v.bytes.take 8) : Int).bmod 18446744073709551616

/-- The `time_t` that `memcpy` writes into the union. -/
def setTime (v : FieldValue) (t : Int) : FieldValue :=
  v.store (leBytes 8 (t % 18446744073709551616).toNat)

end FieldValue

/-! ### Records and tables -/

/-- `Field`. -/
structure Field where
  name : CString
  type : FieldType
  value : FieldValue
  deriving DecidableEq

/-- A zeroed `Field`, of type `TYPE_UNKNOWN`. -/
def Field.zero : Field := ⟨default, .unknown, .zero⟩

/-- An `INT` value as the callers of the interface build it. -/
def Field.ofInt (n : Int) : Field := ⟨default, .int, FieldValue.zero.setInt n⟩

/-- `Constraint`, less the names a foreign key would refer to. -/
structure Constraint where
  nullable : Bool
  unique : Bool
  primaryKey : Bool
  foreignKey : Bool
  deriving DecidableEq

/-- One entry of `field_names`, `field_types` and `constraints`. -/
structure Column where
  name : CString
  type : FieldType
  constraint : Constraint
  deriving DecidableEq

/-- `Record`, less its link. -/
structure Record where
  id : Int
  fields : List Field
  fieldCount : Nat
  timestamp : Int
  version : Int
  deriving DecidableEq

/-- `Index`, less the data that no function fills. -/
structure Index where
  tableName : CString
  fieldName : CString
  type : IndexType
  deriving DecidableEq

/-- The counters of `TableStatistics` that are ever changed. -/
structure TableStatistics where
  recordsInserted : Int
  recordsUpdated : Int
  recordsDeleted : Int
  deriving DecidableEq

/-- `Table`: the records from the head of the list on, and the indexes of its manager. -/
structure Table where
  name : CString
  columns : List Column
  records : List Record
  recordCount : Int
  nextRecordId : Int
  indexes : List Index
  statistics : TableStatistics
  name_lt : name.length < maxTableName
  columns_pos : 0 < columns.length
  columns_le : columns.length ≤ maxFieldsPerTable
  deriving DecidableEq

/-- `field_count`. -/
def Table.fieldCount (t : Table) : Nat := t.columns.length

/-- The counters of `DatabaseStatistics` that the modelled functions change. -/
structure DatabaseStatistics where
  tablesCreated : Int
  transactionsStarted : Int
  transactionsCommitted : Int
  transactionsRolledBack : Int
  indexesCreated : Int
  indexesDropped : Int
  deriving DecidableEq

/-- `Database`.  The array `tables` has `tables.length` entries in use. -/
structure Database where
  tables : List Table
  tableCapacity : Nat
  transactionActive : Bool
  transactionLevel : Nat
  transactionStartTime : Int
  statistics : DatabaseStatistics
  tables_le : tables.length ≤ maxTables
  deriving DecidableEq

/-- `table_count`. -/
def Database.tableCount (db : Database) : Nat := db.tables.length

/-- Rewriting the table a `Table *` points to. -/
def Database.setTable (db : Database) (i : Nat) (t : Table) : Database :=
  { db with tables := db.tables.set i t, tables_le := by simpa using db.tables_le }

end Luminix
