import Luminix.Platform

/-!
# String escapes

`json_escape_string` copies a C string into a buffer and replaces quotes, backslashes and control
characters by escapes, as long as they fit.  `json_escape_string_alloc` gives it a buffer that is
always large enough.
-/

namespace Luminix

open CLib

/-- A hexadecimal digit, in lower case. -/
def hexDigit (n : Nat) : UInt8 := UInt8.ofNat (if n < 10 then 48 + n else 87 + n)

/-- What one character becomes. -/
def escapeByte (c : UInt8) : List UInt8 :=
  match c with
  | 34 => [92, 34]
  | 92 => [92, 92]
  | 8 => [92, 98]
  | 12 => [92, 102]
  | 10 => [92, 110]
  | 13 => [92, 114]
  | 9 => [92, 116]
  | c =>
    if c < 32 then [92, 117, 48, 48, hexDigit (c.toNat / 16), hexDigit (c.toNat % 16)] else [c]

/-- The loop of `json_escape_string`: what it has written to a buffer of `dstSize` bytes.  An escape
that does not fit is left out. -/
def escapeLoop (dstSize : Nat) : List UInt8 → List UInt8 → List UInt8
  | [], dst => dst
  | c :: src, dst =>
    if dst.length < dstSize - 1 then
      if dst.length + (escapeByte c).length < dstSize then
        escapeLoop dstSize src (dst ++ escapeByte c)
      else escapeLoop dstSize src dst
    else dst

/-- `json_escape_string`: the text before the terminator. -/
def jsonEscapeString (src : CString) (dstSize : Nat) : List UInt8 := escapeLoop dstSize src.bytes []

/-- `json_escape_string_alloc`. -/
def jsonEscapeStringAlloc (p : Platform) (s : CString) : Option (List UInt8) :=
  let maxLen := s.length * 6 + 1
  if p.malloc maxLen then some (jsonEscapeString s maxLen) else none

end Luminix
