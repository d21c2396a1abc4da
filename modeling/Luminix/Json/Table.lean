import Luminix.Json.Record

/-!
# A table on its own

`table_to_json` of `json_io.c`.  The schema, and the records if they are asked for, are written by
the functions for the whole database; `json_to_table` reads them.
-/

namespace Luminix

open CLib JsonSerializeState

/-- `JsonSerializeOptions`, as far as `table_to_json` looks at it. -/
structure JsonTableOptions extends JsonSerializeOptions where
  includeData : Bool
  deriving DecidableEq

/-- The object that `table_to_json` appends. -/
def serializeTableObject (p : Platform) (s : JsonSerializeState) (t : Table) (includeData : Bool) :
    Except ErrorCode JsonSerializeState := do
  let s ← s.append p (ascii "\x7b") 1
  let s ← jsonSerializeTableSchema p s.deeper t
  let s ← if includeData then do
      let s ← s.append p (ascii ",\n") 2
      jsonSerializeTableRecords p s t
    else .ok s
  let s ← s.shallower.indent p
  s.append p (ascii "\x7d") 1

/-- `table_to_json`: the string that is returned, or none for a null pointer or a crash.  Without
options the layout is pretty, and the records are left out. -/
def tableToJson (p : Platform) (table : Option Table) (options : Option JsonTableOptions) :
    Option CString :=
  match table with
  | none => none
  | some t =>
    if p.malloc jsonBufferSize then
      let pretty := (options.map (·.pretty)).getD true
      let includeData := (options.map (·.includeData)).getD false
      (serializeTableObject p ⟨[], jsonBufferSize, 0, pretty⟩ t includeData).toOption.map fun s =>
        CString.ofBytes s.buffer
    else none

end Luminix
