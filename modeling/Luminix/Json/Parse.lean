import Luminix.Json.Token
import Luminix.Platform
import Luminix.Database

/-!
# The reader

The recursive-descent functions of `json_io.c`.  A parser takes the text that is left and returns
the text after what it read.  The loops of the source run until a closing token or an error ends
them; here each carries a `fuel` that bounds its rounds, and running out of it is a failure of its
own (`Failure.outOfFuel`), which a caller that starts with more fuel than characters never sees.

The copies of tokens, the array of a record's values and the records themselves are taken to be
allocated; only for the content of the file is `Platform.malloc` asked.
-/

namespace Luminix

open CLib

/-- How reading fails: an error of the source, or a bound on the rounds that was too small. -/
inductive Failure
  | code (e : ErrorCode) | outOfFuel
  deriving DecidableEq

/-- The error of every syntax failure. -/
def invalid {α : Type} : Except Failure α := .error (.code .invalidInput)

/-! ### The loops over objects and arrays

Every loop over an object reads a key and a colon, then the value in its own way, then a comma or
the end; every loop over an array reads an opening brace, then the element, then a comma or the end.
-/

/-- The loop over the members of an object whose `{` has been read. -/
def parseMembers {σ : Type} (member : CString → σ → List UInt8 → Except Failure (σ × List UInt8)) :
    (fuel : Nat) → σ → List UInt8 → Except Failure (σ × List UInt8)
  | 0, _, _ => .error .outOfFuel
  | fuel + 1, s, l =>
    match jsonParseToken l with
    | (.objectEnd, l) => .ok (s, l)
    | (.string key, l) =>
      match jsonParseToken l with
      | (.colon, l) =>
        match member key s l with
        | .ok (s, l) =>
          match jsonParseToken l with
          | (.comma, l) => parseMembers member fuel s l
          | (.objectEnd, l) => .ok (s, l)
          | _ => invalid
        | .error e => .error e
      | _ => invalid
    | _ => invalid

/-- The loop over the elements of an array whose `[` has been read; the elements are objects. -/
def parseElements {σ : Type} (element : σ → List UInt8 → Except Failure (σ × List UInt8)) :
    (fuel : Nat) → σ → List UInt8 → Except Failure (σ × List UInt8)
  | 0, _, _ => .error .outOfFuel
  | fuel + 1, s, l =>
    match jsonParseToken l with
    | (.arrayEnd, l) => .ok (s, l)
    | (.objectStart, l) =>
      match element s l with
      | .ok (s, l) =>
        match jsonParseToken l with
        | (.comma, l) => parseElements element fuel s l
        | (.arrayEnd, l) => .ok (s, l)
        | _ => invalid
      | .error e => .error e
    | _ => invalid

/-! ### Skipping a value -/

/-- `json_skip_token_value`: the value whose first token is `token`.  A loop goes on as if its
opening token had just been read.  The result carries the text also when the value is malformed:
some callers ignore the error. -/
def jsonSkipTokenValue : (fuel : Nat) → JsonToken → List UInt8 → Option (ErrorCode × List UInt8)
  | 0, _, _ => none
  | fuel + 1, .objectStart, l =>
    match jsonParseToken l with
    | (.objectEnd, l) => some (.success, l)
    | (.string _, l) =>
      match jsonParseToken l with
      | (.colon, l) =>
        match jsonSkipTokenValue fuel (jsonParseToken l).1 (jsonParseToken l).2 with
        | some (.success, l) =>
          match jsonParseToken l with
          | (.comma, l) => jsonSkipTokenValue fuel .objectStart l
          | (.objectEnd, l) => some (.success, l)
          | (_, l) => some (.invalidInput, l)
        | r => r
      | (_, l) => some (.invalidInput, l)
    | (_, l) => some (.invalidInput, l)
  | fuel + 1, .arrayStart, l =>
    match jsonParseToken l with
    | (.arrayEnd, l) => some (.success, l)
    | (.eof, l) => some (.invalidInput, l)
    | (.none, l) => some (.invalidInput, l)
    | (token, l) =>
      match jsonSkipTokenValue fuel token l with
      | some (.success, l) =>
        match jsonParseToken l with
        | (.comma, l) => jsonSkipTokenValue fuel .arrayStart l
        | (.arrayEnd, l) => some (.success, l)
        | (_, l) => some (.invalidInput, l)
      | r => r
  | _ + 1, _, l => some (.success, l)

/-- Reading the next token and skipping its value, the result of which is ignored. -/
def skipValue (l : List UInt8) : Except Failure (List UInt8) :=
  match jsonSkipTokenValue (l.length + 1) (jsonParseToken l).1 (jsonParseToken l).2 with
  | some (_, l) => .ok l
  | none => .error .outOfFuel

/-- The same where the caller passes an error on. -/
def skipValueChecked (l : List UInt8) : Except Failure (List UInt8) :=
  match jsonSkipTokenValue (l.length + 1) (jsonParseToken l).1 (jsonParseToken l).2 with
  | some (.success, l) => .ok l
  | some (e, _) => .error (.code e)
  | none => .error .outOfFuel

/-! ### Metadata -/

/-- A member of the metadata: every value is read and dropped. -/
def metadataMember (_key : CString) (s : Unit) (l : List UInt8) :
    Except Failure (Unit × List UInt8) :=
  -- A string under the key `name` is freed, all else is skipped; both read one value.
  (skipValue l).map fun l => (s, l)

/-- `json_parse_database_metadata`. -/
def jsonParseDatabaseMetadata (l : List UInt8) : Except Failure (List UInt8) :=
  match jsonParseToken l with
  | (.objectStart, l) => (parseMembers metadataMember (l.length + 1) () l).map Prod.snd
  | _ => invalid

/-! ### Schemas -/

/-- `string_to_field_type`. -/
def stringToFieldType (s : CString) : FieldType :=
  if s.eqIgnoreCase (cstr "INTEGER") || s.eqIgnoreCase (cstr "INT") then .int
  else if s.eqIgnoreCase (cstr "FLOAT") then .float
  else if s.eqIgnoreCase (cstr "STRING") then .string
  else if s.eqIgnoreCase (cstr "BOOLEAN") || s.eqIgnoreCase (cstr "BOOL") then .bool
  else if s.eqIgnoreCase (cstr "DATETIME") then .datetime
  else if s.eqIgnoreCase (cstr "BLOB") then .blob
  else .unknown

/-- A member of a field definition; other keys than `name` and `type` are skipped. -/
def fieldMember (key : CString) (field : Option CString × FieldType) (l : List UInt8) :
    Except Failure ((Option CString × FieldType) × List UInt8) :=
  if key = cstr "name" then
    match jsonParseToken l with
    | (.string name, l) => .ok ((some name, field.2), l)
    | _ => invalid
  else if key = cstr "type" then
    match jsonParseToken l with
    | (.string type, l) => .ok ((field.1, stringToFieldType type), l)
    | _ => invalid
  else (skipValue l).map fun l => (field, l)

/-- A field definition: without a name the name is null, without a type it is `STRING`. -/
def fieldDefinition (fields : List (Option CString × FieldType)) (l : List UInt8) :
    Except Failure (List (Option CString × FieldType) × List UInt8) :=
  (parseMembers fieldMember (l.length + 1) (none, .string) l).map fun (field, l) =>
    (fields ++ [field], l)

/-- `table_name`, and the arrays `field_names` and `field_types`. -/
structure SchemaDraft where
  name : CString
  fields : List (Option CString × FieldType)
  deriving DecidableEq

/-- A member of a schema other than `schema` itself. -/
def schemaMember (key : CString) (draft : SchemaDraft) (l : List UInt8) :
    Except Failure (SchemaDraft × List UInt8) :=
  if key = cstr "name" then
    match jsonParseToken l with
    | (.string name, l) => .ok ({ draft with name := name.truncate (maxTableName - 1) }, l)
    | _ => invalid
  else if key = cstr "fields" then
    match jsonParseToken l with
    | (.arrayStart, l) =>
      (parseElements fieldDefinition (l.length + 1) draft.fields l).map fun (fields, l) =>
        ({ draft with fields }, l)
    | _ => invalid
  else (skipValue l).map fun l => (draft, l)

/-- The loop of `json_parse_table_schema`, which has read `token`.  A key `schema` opens a nested
object, whose end also ends the loop. -/
def schemaLoop : (fuel : Nat) → SchemaDraft → JsonToken → List UInt8 →
    Except Failure (SchemaDraft × List UInt8)
  | 0, _, _, _ => .error .outOfFuel
  | _ + 1, draft, .objectEnd, l => .ok (draft, l)
  | fuel + 1, draft, .string key, l =>
    match jsonParseToken l with
    | (.colon, l) =>
      if key = cstr "schema" then
        match jsonParseToken l with
        | (.objectStart, l) => schemaLoop fuel draft (jsonParseToken l).1 (jsonParseToken l).2
        | _ => invalid
      else
        match schemaMember key draft l with
        | .ok (draft, l) =>
          match jsonParseToken l with
          | (.comma, l) => schemaLoop fuel draft (jsonParseToken l).1 (jsonParseToken l).2
          | (.objectEnd, l) => .ok (draft, l)
          | _ => invalid
        | .error e => .error e
    | _ => invalid
  | _ + 1, _, _, _ => invalid

/-- The first token of a schema; an opening brace before it is optional. -/
def schemaStart (l : List UInt8) : JsonToken × List UInt8 :=
  match jsonParseToken l with
  | (.objectStart, l) => jsonParseToken l
  | r => r

/-- `json_parse_table_schema`: the database with the new table. -/
def jsonParseTableSchema (db : Database) (l : List UInt8) :
    Except Failure (Database × List UInt8) :=
  match schemaLoop (l.length + 1) ⟨cstr "", []⟩ (schemaStart l).1 (schemaStart l).2 with
  | .error e => .error e
  | .ok (draft, l) =>
    if 0 < draft.name.length ∧ 0 < draft.fields.length then
      match dbAddTable db (some draft.name) (some draft.fields) with
      | (.success, db) => .ok (db, l)
      | (e, _) => .error (.code e)
    else invalid

/-! ### Values -/

/-- A conversion of `sscanf` with `%d`: the number, and the text after it. -/
def scanInt (l : List UInt8) : Option (Int × List UInt8) :=
  let l := jsonSkipWhitespace l
  let digits := skipSign l
  if (digits.head?.any isDigit) then some (atoi l, skipDigits digits) else none

/-- A literal character of a `sscanf` format. -/
def scanLiteral (c : UInt8) : List UInt8 → Option (List UInt8)
  | [] => none
  | d :: l => if c = d then some l else none

/-- `sscanf` with `%d-%d-%d %d:%d:%d`, and `mktime` of the six numbers. -/
def scanDateTime (p : Platform) (s : CString) : Option Int := do
  let (year, l) ← scanInt s.bytes
  let l ← scanLiteral 45 l
  let (month, l) ← scanInt l
  let l ← scanLiteral 45 l
  let (day, l) ← scanInt l
  let (hour, l) ← scanInt (jsonSkipWhitespace l)
  let l ← scanLiteral 58 l
  let (minute, l) ← scanInt l
  let l ← scanLiteral 58 l
  let (second, _) ← scanInt l
  some (p.mktime year month day hour minute second)

/-- The value `json_parse_field_value` stores for a token, in a zeroed union. -/
def tokenValue (p : Platform) (type : FieldType) (token : JsonToken) : FieldValue :=
  match type, token with
  | .int, .number s | .int, .string s => FieldValue.zero.setInt (atoi s.bytes)
  | .string, .string s | .string, .number s => FieldValue.zero.setString s
  | .float, .number s | .float, .string s =>
    FieldValue.zero.setFloatBits (p.floatOfDouble (p.atof s))
  | .double, .number s | .double, .string s => FieldValue.zero.setDoubleBits (p.atof s)
  | .bool, .boolean b => FieldValue.zero.setBool b
  | .bool, .number s => FieldValue.zero.setBool (atoi s.bytes ≠ 0)
  | .bool, .string s =>
    FieldValue.zero.setBool
      (s.eqIgnoreCase (cstr "true") || s.eqIgnoreCase (cstr "1") || s.eqIgnoreCase (cstr "yes"))
  | .datetime, .string s =>
    match scanDateTime p s with
    | some t => FieldValue.zero.setTime t
    | none => .zero
  | _, _ => .zero

/-- `json_parse_field_value`: the type and the value of the field, and the text after one token. -/
def jsonParseFieldValue (p : Platform) (expected : FieldType) (l : List UInt8) :
    FieldType × FieldValue × List UInt8 :=
  match jsonParseToken l with
  | (.null, l) => (.null, .zero, l)
  | (token, l) => (expected, tokenValue p expected token, l)

/-! ### Records -/

/-- `field_values` as `calloc` and the initialisation leave them. -/
def initialValues (columns : List Column) : List Field :=
  columns.map fun c => ⟨default, c.type, .zero⟩

/-- Storing a parsed value; its type is taken over only if it is `TYPE_NULL`. -/
def storeParsed (f : Field) (type : FieldType) (value : FieldValue) : Field :=
  { f with value, type := if type = .null then .null else f.type }

/-- A member of the `fields` object of a record; the value of an unknown field is one token. -/
def recordField (p : Platform) (columns : List Column) (key : CString) (values : List Field)
    (l : List UInt8) : Except Failure (List Field × List UInt8) :=
  match columnIndex columns key with
  | some j =>
    let type := (columns[j]?.map (·.type)).getD .unknown
    let (parsedType, value, l) := jsonParseFieldValue p type l
    .ok (values.modify j fun f => storeParsed f parsedType value, l)
  | none => .ok (values, (jsonParseToken l).2)

/-- `record_id` and `field_values`. -/
structure RecordDraft where
  id : Int
  values : List Field
  deriving DecidableEq

/-- A member of a record. -/
def recordMember (p : Platform) (columns : List Column) (key : CString) (draft : RecordDraft)
    (l : List UInt8) : Except Failure (RecordDraft × List UInt8) :=
  if key = cstr "id" then
    match jsonParseToken l with
    | (.number s, l) => .ok ({ draft with id := atoi s.bytes }, l)
    | (_, l) => .ok (draft, l)
  else if key = cstr "fields" then
    match jsonParseToken l with
    | (.objectStart, l) =>
      (parseMembers (recordField p columns) (l.length + 1) draft.values l).map fun (values, l) =>
        ({ draft with values }, l)
    | _ => invalid
  else (skipValue l).map fun l => (draft, l)

/-- Writing the record id into the first primary key column. -/
def setKeyField (id : Int) : List Column → List Field → List Field
  | c :: cs, f :: fs =>
    if c.constraint.primaryKey then { f with value := f.value.setInt id, type := .int } :: fs
    else f :: setKeyField id cs fs
  | _, fs => fs

/-- Inserting a record that has been read.  One without an id is dropped, and so is one whose id is
taken. -/
def insertDraft (p : Platform) (i : Nat) (columns : List Column) (draft : RecordDraft) (s : Store) :
    Except Failure Store :=
  if draft.id = -1 then .ok s
  else
    match s.insertInto i p.now (some (setKeyField draft.id columns draft.values)) with
    | (.ok _, s) => .ok s
    | (.error .duplicateKey, s) => .ok s
    | (.error e, _) => .error (.code e)

/-- A record of table `i`, read and inserted. -/
def recordElement (p : Platform) (i : Nat) (columns : List Column) (s : Store) (l : List UInt8) :
    Except Failure (Store × List UInt8) :=
  match parseMembers (recordMember p columns) (l.length + 1) ⟨-1, initialValues columns⟩ l with
  | .error e => .error e
  | .ok (draft, l) => (insertDraft p i columns draft s).map fun s => (s, l)

/-- `json_parse_table_records` into the table at place `i`. -/
def jsonParseTableRecords (p : Platform) (i : Nat) (s : Store) (l : List UInt8) :
    Except Failure (Store × List UInt8) :=
  match s.db.tables[i]? with
  | none => invalid
  | some t =>
    match jsonParseToken l with
    | (.arrayStart, l) => parseElements (recordElement p i t.columns) (l.length + 1) s l
    | _ => invalid

end Luminix
