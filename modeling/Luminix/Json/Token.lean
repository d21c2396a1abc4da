import Luminix.CLib.Integer

/-!
# Tokens

`json_parse_token` and the helpers it calls.  The parsing context is the text that is left to read:
its `position` only moves forward, and nothing is read twice.  `error_msg` is written for the log
only and left out.

A token that cannot be read is `none`; the position stays in front of the character that starts it,
except that a string without an end is skipped.
-/

namespace Luminix

open CLib

/-- `JsonToken`, with the value of strings, numbers and booleans. -/
inductive JsonToken
  | none | objectStart | objectEnd | arrayStart | arrayEnd
  | string (value : CString) | number (value : CString) | boolean (value : Bool)
  | null | colon | comma | eof
  deriving DecidableEq

/-- `json_skip_whitespace`. -/
def jsonSkipWhitespace (l : List UInt8) : List UInt8 := l.dropWhile isSpace

/-- `json_match_string`: the text after `word`, if it starts with it. -/
def jsonMatchString (word l : List UInt8) : Option (List UInt8) :=
  if word.isPrefixOf l then some (l.drop word.length) else none

/-- The loop over a string: the text before the closing quote, and the text from the quote on, which
is empty for a string without an end. -/
def stringBody : (escaped : Bool) → List UInt8 → List UInt8 × List UInt8
  | _, [] => ([], [])
  | true, c :: l => ((c :: (stringBody false l).1), (stringBody false l).2)
  | false, c :: l =>
    if c = 34 then ([], c :: l)
    else ((c :: (stringBody (c == 92) l).1), (stringBody (c == 92) l).2)

/-- A token with `json_strndup` of the text read; the copy ends at the first NUL. -/
def scanString (l : List UInt8) : JsonToken × List UInt8 :=
  match stringBody false l with
  | (body, _ :: rest) => (.string (CString.ofBytes body), rest)
  | (_, []) => (.none, [])

/-- The text after an optional minus sign. -/
def skipMinus : List UInt8 → List UInt8
  | 45 :: l => l
  | l => l

/-- The text after an optional sign of an exponent. -/
def skipSign : List UInt8 → List UInt8
  | 43 :: l => l
  | 45 :: l => l
  | l => l

def skipDigits (l : List UInt8) : List UInt8 := l.dropWhile isDigit

/-- The text after an optional decimal part. -/
def skipDecimals : List UInt8 → List UInt8
  | 46 :: l => skipDigits l
  | l => l

/-- The text after an optional exponent part. -/
def skipExponent : List UInt8 → List UInt8
  | 101 :: l => skipDigits (skipSign l)
  | 69 :: l => skipDigits (skipSign l)
  | l => l

/-- The text after a number. -/
def skipNumber (l : List UInt8) : List UInt8 := skipExponent (skipDecimals (skipDigits (skipMinus l)))

def scanNumber (l : List UInt8) : JsonToken × List UInt8 :=
  (.number (CString.ofBytes (l.take (l.length - (skipNumber l).length))), skipNumber l)

/-- A token that is a fixed word. -/
def scanWord (word : List UInt8) (token : JsonToken) (l : List UInt8) : JsonToken × List UInt8 :=
  match jsonMatchString word l with
  | some rest => (token, rest)
  | none => (.none, l)

/-- `json_parse_token`: the token, and the text after it. -/
def jsonParseToken (l : List UInt8) : JsonToken × List UInt8 :=
  match jsonSkipWhitespace l with
  | [] => (.eof, [])
  | 123 :: l => (.objectStart, l)
  | 125 :: l => (.objectEnd, l)
  | 91 :: l => (.arrayStart, l)
  | 93 :: l => (.arrayEnd, l)
  | 58 :: l => (.colon, l)
  | 44 :: l => (.comma, l)
  | 34 :: l => scanString l
  | 116 :: l => scanWord (ascii "true") (.boolean true) (116 :: l)
  | 102 :: l => scanWord (ascii "false") (.boolean false) (102 :: l)
  | 110 :: l => scanWord (ascii "null") .null (110 :: l)
  | c :: l => if c == 45 || isDigit c then scanNumber (c :: l) else (.none, c :: l)

end Luminix
