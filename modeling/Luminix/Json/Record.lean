import Luminix.Json.Parse
import Luminix.Json.Serialize

/-!
# A record on its own

`record_to_json` and `json_to_record` of `json_io.c`.  They write and read a record apart from its
database, and share with the functions for the whole database only those for single values.
-/

namespace Luminix

open CLib JsonSerializeState

/-! ### Writing -/

/-- `JsonSerializeOptions`, less the options that change nothing here. -/
structure JsonSerializeOptions where
  pretty : Bool
  deriving DecidableEq

/-- The line feed that stands in front of an indentation in the pretty layout. -/
def breakLine (p : Platform) (s : JsonSerializeState) : Except ErrorCode JsonSerializeState :=
  if s.pretty then s.append p (ascii "\n") 1 else .ok s

/-- The loop over the fields, which reads `record->fields[i]` for each column: `first` in its first
round.  The column name is not escaped. -/
def serializeMembers (p : Platform) : (first : Bool) → List Column → List Field →
    JsonSerializeState → Except ErrorCode JsonSerializeState
  | _, [], _, s => .ok s
  | first, c :: cs, fields, s => do
    let s ← if first then .ok s else s.append p (ascii ",") 1
    let s ← breakLine p s
    let s ← s.indent p
    let s ← s.append p (ascii "\"") 1
    let s ← s.append p c.name.bytes c.name.length
    let s ← s.append p (ascii "\": ") 3
    let s ← jsonSerializeFieldValue p s (fields.headD .zero)
    serializeMembers p false cs fields.tail s

/-- The object that `record_to_json` appends.  An indentation is empty unless the layout is
pretty. -/
def serializeObject (p : Platform) (s : JsonSerializeState) (columns : List Column) (r : Record) :
    Except ErrorCode JsonSerializeState := do
  let s ← s.append p (ascii "\x7b") 1
  let s ← s.deeper.indent p
  let s ← s.append p (ascii "\"id\": ") 6
  let s ← s.append p (decimal r.id) (decimal r.id).length
  let s ← s.append p (ascii ",") 1
  let s ← breakLine p s
  let s ← s.indent p
  let s ← s.append p (ascii "\"fields\": \x7b") 11
  let s ← serializeMembers p true columns r.fields s.deeper
  let s ← breakLine p s
  let s ← s.shallower.indent p
  let s ← s.append p (ascii "\x7d") 1
  let s ← breakLine p s.shallower
  let s ← s.indent p
  s.append p (ascii "\x7d") 1

/-- `record_to_json`: the string that is returned, or none for a null pointer or a crash. -/
def recordToJson (p : Platform) (record : Option Record) (table : Option Table)
    (options : Option JsonSerializeOptions) : Option CString :=
  match record, table with
  | none, _ | some _, none => none
  | some r, some t =>
    if p.malloc jsonBufferSize then
      let pretty := (options.map (·.pretty)).getD false
      (serializeObject p ⟨[], jsonBufferSize, 0, pretty⟩ t.columns r).toOption.map fun s =>
        CString.ofBytes s.buffer
    else none

/-! ### Reading -/

/-- `field_values` as `calloc` leaves them. -/
def zeroedValues (columns : List Column) : List Field := columns.map fun _ => .zero

/-- A member of the record: the id has to be a number, and the value of another key is one token.
After an error inside of `fields` the source frees the key a second time; here it is only an
error. -/
def objectMember (p : Platform) (columns : List Column) (key : CString) (draft : RecordDraft)
    (l : List UInt8) : Except Failure (RecordDraft × List UInt8) :=
  if key = cstr "id" then
    match jsonParseToken l with
    | (.number s, l) => .ok ({ draft with id := atoi s.bytes }, l)
    | _ => invalid
  else if key = cstr "fields" then
    match jsonParseToken l with
    | (.objectStart, l) =>
      -- The value is stored, and its type only if it is `TYPE_NULL`, as when a table is read.
      (parseMembers (recordField p columns) (l.length + 1) draft.values l).map fun (values, l) =>
        ({ draft with values }, l)
    | _ => invalid
  else .ok (draft, (jsonParseToken l).2)

/-- `json_to_record`: the record, or none for a null pointer.  The options change nothing. -/
def jsonToRecord (p : Platform) (jsonStr : Option CString) (table : Option Table) :
    Option Record :=
  match jsonStr, table with
  | none, _ | some _, none => none
  | some text, some t =>
    match jsonParseToken text.bytes with
    | (.objectStart, l) =>
      match parseMembers (objectMember p t.columns) (l.length + 1) ⟨-1, zeroedValues t.columns⟩ l with
      | .error _ => none
      | .ok (draft, _) =>
        if draft.id = -1 then none
        else some {
          id := draft.id
          fields := draft.values
          fieldCount := t.fieldCount
          timestamp := p.now
          version := 1 }
    | _ => none

end Luminix
