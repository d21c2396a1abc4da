import Luminix.Json.Parse
import Luminix.Json.Serialize

/-!
# Saving and loading

`db_save_to_file` and `db_load_from_file` for arguments that are not null.  A file is its bytes.
The options of both functions change nothing.
-/

namespace Luminix

open CLib JsonSerializeState

/-! ### Saving -/

/-- One element of the array of tables. -/
def serializeTable (p : Platform) (s : JsonSerializeState) (t : Table) :
    Except ErrorCode JsonSerializeState := do
  let s ← s.indent p
  let s ← s.append p (ascii "\x7b\n") 2
  let s ← jsonSerializeTableSchema p s.deeper t
  let s ← s.append p (ascii ",\n") 2
  let s ← jsonSerializeTableRecords p s t
  let s ← s.shallower.indent p
  s.append p (ascii "\x7d") 1

/-- The loop over the tables: `first` in its first round. -/
def serializeTables (p : Platform) : (first : Bool) → List Table → JsonSerializeState →
    Except ErrorCode JsonSerializeState
  | _, [], s => .ok s
  | first, t :: ts, s => do
    let s ← if first then .ok s else s.append p (ascii ",") 1
    let s ← serializeTable p s t
    serializeTables p false ts s

/-- The text of the file. -/
def serializeDatabase (p : Platform) (db : Database) : Except ErrorCode JsonSerializeState :=
  if p.malloc jsonBufferSize then do
    let s : JsonSerializeState := ⟨[], jsonBufferSize, 0, true⟩
    let s ← s.append p (ascii "\x7b") 1
    let s ← jsonSerializeDatabaseMetadata p s.deeper db
    let s ← s.append p (ascii ",") 1
    let s ← s.indent p
    let s ← s.append p (ascii "\"tables\": [") 11
    let s ← serializeTables p true db.tables s.deeper
    let s ← s.shallower.indent p
    let s ← s.append p (ascii "]") 1
    let s ← s.shallower.indent p
    s.append p (ascii "\x7d") 1
  else .error .memoryAllocation

/-- `db_save_to_file`: the result, and the file that is written. -/
def dbSaveToFile (p : Platform) (db : Database) : ErrorCode × Option (List UInt8) :=
  match serializeDatabase p db with
  | .error e => (e, none)
  | .ok s =>
    if p.opensForWriting then
      let written := p.fwrite s.buffer.length
      (if written = s.buffer.length then .success else .ioOperation, some (s.buffer.take written))
    else (.ioOperation, none)

/-- `JsonSaveOptions`, as far as the file that is there is concerned. -/
structure JsonSaveOptions where
  atomicWrite : Bool
  backupExisting : Bool
  deriving DecidableEq

/-- `db_save_to_file` onto a file that holds `old`, or onto none: the result, and the file
afterwards.  No option is looked at; `fopen` with the mode `wb` empties the file, and `fwrite` comes
after it. -/
def saveOver (p : Platform) (_options : Option JsonSaveOptions) (old : Option (List UInt8))
    (db : Database) : ErrorCode × Option (List UInt8) :=
  ((dbSaveToFile p db).1, (dbSaveToFile p db).2.or old)

/-! ### Loading -/

/-- What follows a table in the array: its end, another element, or another table whose `{` has been
read already. -/
inductive AfterTable
  | arrayEnd | element | table
  deriving DecidableEq

/-- The value of a key beside `schema`. -/
def siblingMember (p : Platform) (i : Nat) (key : CString) (s : Store) (l : List UInt8) :
    Except Failure (Store × List UInt8) :=
  if key = cstr "records" then jsonParseTableRecords p i s l
  else (skipValueChecked l).map fun l => (s, l)

/-- The loop over further keys beside `schema`. -/
def siblingLoop (p : Platform) (i : Nat) : (fuel : Nat) → Store → List UInt8 →
    Except Failure (Store × List UInt8)
  | 0, _, _ => .error .outOfFuel
  | fuel + 1, s, l =>
    match jsonParseToken l with
    | (.objectEnd, l) => .ok (s, l)
    | (.comma, l) =>
      match jsonParseToken l with
      | (.string key, l) =>
        match jsonParseToken l with
        | (.colon, l) =>
          match siblingMember p i key s l with
          | .ok (s, l) => siblingLoop p i fuel s l
          | .error e => .error e
        | _ => invalid
      | _ => invalid
    | _ => invalid

/-- What follows a table whose outer object has ended. -/
def afterOuterTable (s : Store) (l : List UInt8) : Except Failure (AfterTable × Store × List UInt8) :=
  match jsonParseToken l with
  | (.comma, l) => .ok (.element, s, l)
  | (.arrayEnd, l) => .ok (.arrayEnd, s, l)
  | _ => invalid

/-- A table: its schema, flat or nested, and what stands beside a nested schema. -/
def parseTable (p : Platform) (s : Store) (l : List UInt8) :
    Except Failure (AfterTable × Store × List UInt8) :=
  match jsonParseTableSchema s.db l with
  | .error e => .error e
  | .ok (db, l) =>
    let s : Store := { s with db }
    let i := s.db.tableCount - 1
    match jsonParseToken l with
    | (.arrayEnd, l) => .ok (.arrayEnd, s, l)
    | (.objectEnd, l) => afterOuterTable s l
    | (.comma, l) =>
      match jsonParseToken l with
      | (.objectStart, l) => .ok (.table, s, l)
      | (.arrayEnd, l) => .ok (.arrayEnd, s, l)
      | (.string key, l) =>
        match jsonParseToken l with
        | (.colon, l) =>
          match siblingMember p i key s l with
          | .error e => .error e
          | .ok (s, l) =>
            match siblingLoop p i (l.length + 1) s l with
            | .error e => .error e
            | .ok (s, l) => afterOuterTable s l
        | _ => invalid
      | _ => invalid
    | _ => invalid

/-- The loop over the array of tables: `started` is `has_table_start`. -/
def tablesLoop (p : Platform) : (fuel : Nat) → (started : Bool) → Store → List UInt8 →
    Except Failure (Store × List UInt8)
  | 0, _, _, _ => .error .outOfFuel
  | fuel + 1, started, s, l =>
    let table (l : List UInt8) :=
      match parseTable p s l with
      | .error e => .error e
      | .ok (.arrayEnd, s, l) => .ok (s, l)
      | .ok (.element, s, l) => tablesLoop p fuel false s l
      | .ok (.table, s, l) => tablesLoop p fuel true s l
    if started then table l
    else
      match jsonParseToken l with
      | (.arrayEnd, l) => .ok (s, l)
      | (.objectStart, l) => table l
      | _ => invalid

/-- A member of the outermost object. -/
def topMember (p : Platform) (key : CString) (s : Store) (l : List UInt8) :
    Except Failure (Store × List UInt8) :=
  if key = cstr "metadata" then (jsonParseDatabaseMetadata l).map fun l => (s, l)
  else if key = cstr "tables" then
    match jsonParseToken l with
    | (.arrayStart, l) => tablesLoop p (l.length + 1) false s l
    | _ => invalid
  else (skipValueChecked l).map fun l => (s, l)

/-- The reader over the whole content of a file, which ends with the outermost object. -/
def loadContent (p : Platform) (counter : Int) (content : List UInt8) : Except Failure Store :=
  match jsonParseToken content with
  | (.objectStart, l) =>
    (parseMembers (topMember p) (l.length + 1) ⟨dbCreate, counter⟩ l).map Prod.fst
  | _ => invalid

/-- `db_load_from_file` on a file with these bytes, or without a file that can be opened.  The
result is `some none` for a null pointer and `some (some s)` for a database; `none` means that the
bound on the rounds of a loop was too small.  A load that ends the program has no result; it is
`some none` here, and `loadCrashes` tells it apart. -/
def dbLoadFromFile (p : Platform) (counter : Int) (file : Option (List UInt8)) :
    Option (Option Store) :=
  match file with
  | none => some none
  | some content =>
    if content.length = 0 then some none
    else if p.malloc (content.length + 1) then
      match loadContent p counter content with
      | .ok s => some (some s)
      | .error (.code _) => some none
      | .error .outOfFuel => none
    else some none

/-- Whether `db_load_from_file` ends the program: it comes to a table that has a column without a
name, and `db_add_table` does not return. -/
def loadCrashes (p : Platform) (counter : Int) (file : Option (List UInt8)) : Bool :=
  match file with
  | none => false
  | some content =>
    p.malloc (content.length + 1) &&
      match loadContent p counter content with
      | .error (.code .crash) => true
      | _ => false

end Luminix
