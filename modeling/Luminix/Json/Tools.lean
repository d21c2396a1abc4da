import Luminix.Json.Escape
import Luminix.Json.Parse
import Luminix.Json.Pretty

/-!
# Merging, paths and statistics

`json_merge_string`, `json_path_query_string_simplified`, `json_get_stats_string` and `json_get_type`
of `json_io.c`.  The text of a key is compared as it was read, although the source has freed it by then.
-/

namespace Luminix

open CLib

/-- `JsonMergeStrategy`. -/
inductive JsonMergeStrategy
  | overwrite | preserve | deep | concat | union | intersection | custom
  deriving DecidableEq

/-- `json_merge_string`; the strategy is not used.  `snprintf` leaves out what does not fit. -/
def jsonMergeString (p : Platform) (json1 json2 : Option CString) (_strategy : JsonMergeStrategy) :
    Option CString :=
  match json1, json2 with
  | some json1, some json2 =>
    let totalLen := json1.length + json2.length + 3
    let text := ascii "[" ++ (json1.bytes ++ (ascii "," ++ (json2.bytes ++ ascii "]")))
    if p.malloc totalLen then some (CString.ofBytes (text.take (totalLen - 1))) else none
  | _, _ => none

/-! ### Paths -/

/-- The token of a value, turned back into a text. -/
def pathValue (p : Platform) : JsonToken → Option CString
  | .string value => (jsonEscapeStringAlloc p value).map CString.ofBytes
  | .number value => jsonStrdup p value
  | .boolean true => jsonStrdup p (cstr "true")
  | .boolean false => jsonStrdup p (cstr "false")
  | .null => jsonStrdup p (cstr "null")
  | .objectStart | .arrayStart => jsonStrdup p (cstr "\x7b\x7d")
  | .none | .objectEnd | .arrayEnd | .colon | .comma | .eof => none

/-- The loop over the members of an object whose `{` has been read.  Of a value with another key one
token is skipped. -/
def pathLoop (p : Platform) (key : CString) :
    (fuel : Nat) → List UInt8 → Except Failure (Option CString)
  | 0, _ => .error .outOfFuel
  | fuel + 1, l =>
    match jsonParseToken l with
    | (.string currentKey, l) =>
      match jsonParseToken l with
      | (.colon, l) =>
        if currentKey = key then .ok (pathValue p (jsonParseToken l).1)
        else
          match jsonParseToken (jsonParseToken l).2 with
          | (.comma, l) => pathLoop p key fuel l
          | _ => .ok none
      | _ => .ok none
    | _ => .ok none

/-- `json_path_query_string_simplified`. -/
def jsonPathQueryStringSimplified (p : Platform) (jsonStr path : Option CString) :
    Except Failure (Option CString) :=
  match jsonStr, path with
  | some s, some path =>
    if path = cstr "$" then .ok (jsonStrdup p s)
    else
      match path.bytes with
      | 36 :: 46 :: key =>
        match jsonParseToken s.bytes with
        | (.objectStart, l) => pathLoop p (CString.ofBytes key) (l.length + 1) l
        | _ => .ok none
      | _ => .ok none
  | _, _ => .ok none

/-! ### Statistics -/

/-- `JsonStats`, less the time that was needed and the counts that stay zero. -/
structure JsonStats where
  totalSize : Nat := 0
  objectCount : Nat := 0
  arrayCount : Nat := 0
  stringCount : Nat := 0
  numberCount : Nat := 0
  booleanCount : Nat := 0
  nullCount : Nat := 0
  stringBytes : Nat := 0
  elementCount : Nat := 0
  deriving DecidableEq

/-- What one token adds. -/
def JsonStats.count (stats : JsonStats) : JsonToken → JsonStats
  | .objectStart => { stats with objectCount := stats.objectCount + 1 }
  | .arrayStart => { stats with arrayCount := stats.arrayCount + 1 }
  | .string value =>
    { stats with
      stringCount := stats.stringCount + 1
      stringBytes := stats.stringBytes + value.length }
  | .number _ => { stats with numberCount := stats.numberCount + 1 }
  | .boolean _ => { stats with booleanCount := stats.booleanCount + 1 }
  | .null => { stats with nullCount := stats.nullCount + 1 }
  | .none | .objectEnd | .arrayEnd | .colon | .comma | .eof => stats

/-- The token loop of `json_get_stats_string`; without a result if `TOKEN_EOF` is not among the next
`fuel` tokens. -/
def statsLoop : (fuel : Nat) → JsonStats → List UInt8 → Option JsonStats
  | 0, _, _ => none
  | fuel + 1, stats, l =>
    match jsonParseToken l with
    | (.eof, _) => some stats
    | (token, l) => statsLoop fuel (stats.count token) l

/-- `json_get_stats_string`, as far as `fuel` tokens. -/
def jsonGetStatsString (fuel : Nat) (jsonStr : Option CString) : Option (Option JsonStats) :=
  match jsonStr with
  | none => some none
  | some s => do
    let stats ← statsLoop fuel { totalSize := s.length } s.bytes
    some (some { stats with
      elementCount := stats.stringCount + stats.numberCount + stats.booleanCount + stats.nullCount })

/-! ### Types -/

/-- The name that `json_get_type` has for the first token. -/
def JsonToken.typeName : JsonToken → CString
  | .objectStart => cstr "object"
  | .arrayStart => cstr "array"
  | .string _ => cstr "string"
  | .number _ => cstr "number"
  | .boolean _ => cstr "boolean"
  | .null => cstr "null"
  | .none | .objectEnd | .arrayEnd | .colon | .comma | .eof => cstr "unknown"

/-- `json_get_type`. -/
def jsonGetType (p : Platform) (jsonStr : Option CString) : Option CString :=
  match jsonStr with
  | none => none
  | some s => jsonStrdup p (jsonParseToken s.bytes).1.typeName

end Luminix
