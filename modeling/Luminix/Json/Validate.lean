import Luminix.Json.Token
import Luminix.Types

/-!
# Validation

`validate_json` of `json_io.c`.  It is the only caller that hands on `error_msg`, the text that
`json_parse_token` leaves in the context for a token it cannot read; `tokenError` is that text for
the first token.
-/

namespace Luminix

open CLib

/-- `error_msg` of the context behind a first token that is `none`.  A word that is not known leaves
none, and the buffer of the context is zeroed. -/
def tokenError (l : List UInt8) : List UInt8 :=
  match jsonSkipWhitespace l with
  | [] => []
  | 34 :: r => ascii "Unterminated string at position " ++ natDecimal (l.length - r.length)
  | c :: r =>
    if c ∈ ascii "tfn" then []
    else
      ascii "Unexpected character '" ++ c :: ascii "' at position " ++
        natDecimal (l.length - (c :: r).length)

/-- A token that a value may start with. -/
def JsonToken.startsValue : JsonToken → Bool
  | .objectStart | .arrayStart | .string _ | .number _ | .boolean _ | .null => true
  | .none | .objectEnd | .arrayEnd | .colon | .comma | .eof => false

/-- The end of `validate_json`, behind the first token. -/
def validateEnd (l : List UInt8) : ErrorCode × Option (List UInt8) :=
  match jsonParseToken l with
  | (.eof, _) => (.success, none)
  | _ => (.invalidInput, some (ascii "Invalid JSON: extra characters after value"))

/-- `validate_json`: the result, and the message if there is one. -/
def validateJson (jsonStr : Option CString) : ErrorCode × Option (List UInt8) :=
  match jsonStr with
  | none => (.invalidInput, none)
  | some s =>
    match jsonParseToken s.bytes with
    | (.none, _) => (.invalidInput, some (tokenError s.bytes))
    | (token, l) =>
      if token.startsValue then validateEnd l
      else (.invalidInput, some (ascii "Invalid JSON: expected value"))

end Luminix
