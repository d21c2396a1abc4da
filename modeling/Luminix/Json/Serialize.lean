import Luminix.Json.Escape
import Luminix.Database

/-!
# The writer

The serializer of `json_io.c`.  Its state is a growing buffer and an indentation level; every piece
of text is appended together with the length the source counts for it.  A step fails with
`ERROR_MEMORY_ALLOCATION`, which every caller returns in the end, when an allocation fails, and with
`crash` when a stored time is beyond what `localtime` converts.
-/

namespace Luminix

open CLib

def jsonBufferSize : Nat := 4096
def jsonIndentSize : Nat := 2

/-- `JsonSerializeState`, less the options that nothing reads.  `size` is the length of `buffer`. -/
structure JsonSerializeState where
  buffer : List UInt8
  capacity : Nat
  indentLevel : Nat
  pretty : Bool

namespace JsonSerializeState

/-- Doubling a capacity until it is large enough. -/
def doubleCapacity : (fuel : Nat) → Nat → Nat → Nat
  | 0, capacity, _ => capacity
  | fuel + 1, capacity, needed =>
    if capacity < needed then doubleCapacity fuel (capacity * 2) needed else capacity

/-- `json_serialize_ensure_capacity`. -/
def ensureCapacity (p : Platform) (s : JsonSerializeState) (additional : Nat) :
    Except ErrorCode JsonSerializeState :=
  let needed := s.buffer.length + additional + 1
  if s.capacity < needed then
    let newCapacity := doubleCapacity needed (s.capacity * 2) needed
    if p.malloc newCapacity then .ok { s with capacity := newCapacity }
    else .error .memoryAllocation
  else .ok s

/-- `json_serialize_append`: `len` bytes of `str`. -/
def append (p : Platform) (s : JsonSerializeState) (str : List UInt8) (len : Nat) :
    Except ErrorCode JsonSerializeState := do
  let s ← s.ensureCapacity p len
  .ok { s with buffer := s.buffer ++ str.take len }

/-- `json_serialize_append_string`. -/
def appendString (p : Platform) (s : JsonSerializeState) (str : CString) :
    Except ErrorCode JsonSerializeState :=
  match jsonEscapeStringAlloc p str with
  | none => .error .memoryAllocation
  | some escaped => do
    let s ← s.append p (ascii "\"") 1
    let s ← s.append p escaped escaped.length
    s.append p (ascii "\"") 1

/-- The blanks of an indentation. -/
def appendSpaces (p : Platform) : Nat → JsonSerializeState → Except ErrorCode JsonSerializeState
  | 0, s => .ok s
  | n + 1, s => do
    let s ← s.append p (ascii " ") 1
    appendSpaces p n s

/-- `json_serialize_indent`. -/
def indent (p : Platform) (s : JsonSerializeState) : Except ErrorCode JsonSerializeState :=
  if s.pretty then do
    let s ← s.append p (ascii "\n") 1
    appendSpaces p (s.indentLevel * jsonIndentSize) s
  else .ok s

/-- `state->indent_level++`. -/
def deeper (s : JsonSerializeState) : JsonSerializeState :=
  { s with indentLevel := s.indentLevel + 1 }

/-- `state->indent_level--`. -/
def shallower (s : JsonSerializeState) : JsonSerializeState :=
  { s with indentLevel := s.indentLevel - 1 }

end JsonSerializeState

open JsonSerializeState

/-! ### Values -/

/-- `field_type_to_string`. -/
def fieldTypeToString : FieldType → CString
  | .int => cstr "INT"
  | .string => cstr "STRING"
  | .float => cstr "FLOAT"
  | .double => cstr "DOUBLE"
  | .bool => cstr "BOOL"
  | .datetime => cstr "DATETIME"
  | .blob => cstr "BLOB"
  | .null => cstr "NULL"
  | .unknown => cstr "UNKNOWN"

/-- The text of a `FLOAT` or `DOUBLE` value. -/
def floatText (f : Field) : List UInt8 :=
  if f.type = .float then fixedText binary32 6 f.value.floatBits
  else fixedText binary64 10 f.value.doubleBits

/-- `json_serialize_field_value`.  The buffer of a number has 32 bytes, but `snprintf` returns the
length of the whole text, and that many bytes are appended. -/
def jsonSerializeFieldValue (p : Platform) (s : JsonSerializeState) (f : Field) :
    Except ErrorCode JsonSerializeState :=
  match f.type with
  | .int => s.append p (decimal f.value.intValue) (decimal f.value.intValue).length
  | .string => s.appendString p f.value.stringValue
  | .float | .double => s.append p (p.snprintf 32 (floatText f)) (floatText f).length
  | .bool => if f.value.boolValue then s.append p (ascii "true") 4 else s.append p (ascii "false") 5
  | .datetime =>
    if p.localtime f.value.timeValue then
      s.append p (p.dateTimeText f.value.timeValue) (p.dateTimeText f.value.timeValue).length
    else .error .crash -- `strftime` reads from the null pointer that `localtime` returns
  | .null => s.append p (ascii "null") 4
  | .blob | .unknown => s.append p (ascii "\"\"") 2

/-! ### Metadata -/

/-- `get_database_name`. -/
def getDatabaseName (_db : Database) : CString := cstr "Database"

/-- `LUMINIX_VERSION_STRING`. -/
def luminixVersionString : List UInt8 := ascii "1.0.0"

/-- `json_serialize_database_metadata`. -/
def jsonSerializeDatabaseMetadata (p : Platform) (s : JsonSerializeState) (db : Database) :
    Except ErrorCode JsonSerializeState := do
  let s ← s.indent p
  let s ← s.append p (ascii "\"metadata\": \x7b\n") 14
  let s ← s.deeper.indent p
  let s ← s.append p (ascii "\"name\": ") 8
  let s ← s.appendString p (getDatabaseName db)
  let s ← s.append p (ascii ",\n") 2
  let s ← s.indent p
  let s ← s.append p (ascii "\"version\": \"") 12
  let s ← s.append p luminixVersionString luminixVersionString.length
  let s ← s.append p (ascii "\",\n") 3
  let s ← s.indent p
  let s ← s.append p (ascii "\"created_at\": ") 14
  let s ← s.append p (p.dateTimeText p.now) (p.dateTimeText p.now).length
  let s ← s.append p (ascii ",\n") 2
  let s ← s.indent p
  let s ← s.append p (ascii "\"table_count\": ") 15
  let s ← s.append p (decimal db.tableCount) (decimal db.tableCount).length
  let s ← s.append p (ascii "\n") 1
  let s ← s.shallower.indent p
  s.append p (ascii "\x7d") 1

/-! ### Schemas -/

/-- The constraints a column is written with, each as the literal the source appends. -/
def constraintTexts (k : Constraint) : List (List UInt8 × Nat) :=
  (if k.primaryKey then [(ascii "\"PRIMARY KEY\"", 13)] else []) ++
  (if k.unique then [(ascii "\"UNIQUE\"", 8)] else []) ++
  (if !k.nullable then [(ascii "\"NOT NULL\"", 10)] else [])

/-- The constraints, separated by commas: `first` until one is written. -/
def appendConstraints (p : Platform) : (first : Bool) → List (List UInt8 × Nat) →
    JsonSerializeState → Except ErrorCode JsonSerializeState
  | _, [], s => .ok s
  | first, (text, len) :: rest, s => do
    let s ← if first then .ok s else s.append p (ascii ", ") 2
    let s ← s.append p text len
    appendConstraints p false rest s

/-- The constraint list of a column, written only if one of the three flags is not the default. -/
def serializeConstraints (p : Platform) (s : JsonSerializeState) (k : Constraint) :
    Except ErrorCode JsonSerializeState :=
  if k.primaryKey || k.unique || !k.nullable then do
    let s ← s.append p (ascii ",\n") 2
    let s ← s.indent p
    let s ← s.append p (ascii "\"constraints\": [") 16
    let s ← appendConstraints p true (constraintTexts k) s
    s.append p (ascii "]") 1
  else .ok s

/-- One column of the field list. -/
def serializeColumn (p : Platform) (s : JsonSerializeState) (c : Column) :
    Except ErrorCode JsonSerializeState := do
  let s ← s.indent p
  let s ← s.append p (ascii "\x7b\n") 2
  let s ← s.deeper.indent p
  let s ← s.append p (ascii "\"name\": ") 8
  let s ← s.appendString p c.name
  let s ← s.append p (ascii ",\n") 2
  let s ← s.indent p
  let s ← s.append p (ascii "\"type\": ") 8
  let s ← s.appendString p (fieldTypeToString c.type)
  let s ← serializeConstraints p s c.constraint
  let s ← s.shallower.indent p
  s.append p (ascii "\x7d") 1

/-- The separator after an element: a comma unless it is the last one. -/
def appendSeparator {α : Type} (p : Platform) (s : JsonSerializeState) :
    (rest : List α) → Except ErrorCode JsonSerializeState
  | [] => s.append p (ascii "\n") 1
  | _ :: _ => s.append p (ascii ",\n") 2

/-- The loop over the columns. -/
def serializeColumns (p : Platform) : List Column → JsonSerializeState → Except ErrorCode JsonSerializeState
  | [], s => .ok s
  | c :: cs, s => do
    let s ← serializeColumn p s c
    let s ← appendSeparator p s cs
    serializeColumns p cs s

/-- `json_serialize_table_schema`. -/
def jsonSerializeTableSchema (p : Platform) (s : JsonSerializeState) (t : Table) :
    Except ErrorCode JsonSerializeState := do
  let s ← s.indent p
  let s ← s.append p (ascii "\"schema\": \x7b\n") 12
  let s ← s.deeper.indent p
  let s ← s.append p (ascii "\"name\": ") 8
  let s ← s.appendString p t.name
  let s ← s.append p (ascii ",\n") 2
  let s ← s.indent p
  let s ← s.append p (ascii "\"fields\": [\n") 12
  let s ← serializeColumns p t.columns s.deeper
  let s ← s.shallower.indent p
  let s ← s.append p (ascii "],\n") 3
  let s ← s.indent p
  let s ← s.append p (ascii "\"record_count\": ") 16
  let s ← s.append p (decimal t.recordCount) (decimal t.recordCount).length
  let s ← s.shallower.indent p
  s.append p (ascii "\x7d") 1

/-! ### Records -/

/-- The loop over the fields of a record, which reads `record->fields[i]` for each column.  The
column name is not escaped here. -/
def serializeFields (p : Platform) : List Column → List Field → JsonSerializeState →
    Except ErrorCode JsonSerializeState
  | [], _, s => .ok s
  | c :: cs, fields, s => do
    let s ← s.indent p
    let s ← s.append p (ascii "\"") 1
    let s ← s.append p c.name.bytes c.name.length
    let s ← s.append p (ascii "\": ") 3
    let s ← jsonSerializeFieldValue p s (fields.headD .zero)
    let s ← appendSeparator p s cs
    serializeFields p cs fields.tail s

/-- What `printf` prints for `%u` given an `int`. -/
def unsignedDecimal (n : Int) : List UInt8 := natDecimal (n % 4294967296).toNat

/-- One record. -/
def serializeRecord (p : Platform) (s : JsonSerializeState) (columns : List Column) (r : Record) :
    Except ErrorCode JsonSerializeState := do
  let s ← s.indent p
  let s ← s.append p (ascii "\x7b\n") 2
  let s ← s.deeper.indent p
  let s ← s.append p (ascii "\"id\": ") 6
  let s ← s.append p (decimal r.id) (decimal r.id).length
  let s ← s.append p (ascii ",\n") 2
  let s ← s.indent p
  let s ← s.append p (ascii "\"fields\": \x7b\n") 12
  let s ← serializeFields p columns r.fields s.deeper
  let s ← s.shallower.indent p
  let s ← s.append p (ascii "\x7d") 1
  let s ← s.append p (ascii ",\n") 2
  let s ← s.indent p
  let s ← s.append p (ascii "\"metadata\": \x7b\n") 14
  let s ← s.deeper.indent p
  let s ← s.append p (ascii "\"timestamp\": ") 13
  let s ← s.append p (p.dateTimeText r.timestamp) (p.dateTimeText r.timestamp).length
  let s ← s.append p (ascii ",\n") 2
  let s ← s.indent p
  let s ← s.append p (ascii "\"version\": ") 11
  let s ← s.append p (unsignedDecimal r.version) (unsignedDecimal r.version).length
  let s ← s.shallower.indent p
  let s ← s.append p (ascii "\x7d") 1
  let s ← s.shallower.indent p
  s.append p (ascii "\x7d") 1

/-- The loop over the records: `first` is `first_record`. -/
def serializeRecords (p : Platform) (columns : List Column) : (first : Bool) → List Record →
    JsonSerializeState → Except ErrorCode JsonSerializeState
  | first, [], s => if first then .ok s else s.append p (ascii "\n") 1
  | first, r :: rs, s => do
    let s ← if first then .ok s else s.append p (ascii ",\n") 2
    let s ← serializeRecord p s columns r
    serializeRecords p columns false rs s

/-- `json_serialize_table_records`. -/
def jsonSerializeTableRecords (p : Platform) (s : JsonSerializeState) (t : Table) :
    Except ErrorCode JsonSerializeState := do
  let s ← s.indent p
  let s ← s.append p (ascii "\"records\": [\n") 13
  let s ← serializeRecords p t.columns true t.records s.deeper
  let s ← s.shallower.indent p
  s.append p (ascii "]") 1

end Luminix
