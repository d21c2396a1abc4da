import Luminix.CLib.CString
import Luminix.CLib.Words

/-!
# Lists of strings and lines of input

`string_split` and `join_strings` of `utils.c`, and the way from `stdin` to a query: `read_line` and
`read_multiline_input`.  What is read from a stream is its bytes, and what is left of them.
-/

namespace Luminix

open CLib

/-! ### Splitting and joining -/

/-- `trim_whitespace`: what its result points to. -/
def trimWhitespace (str : CString) : CString where
  bytes := (str.bytes.rdropWhile isSpace).dropWhile isSpace
  nulFree h := str.nulFree (mem_of_mem_strip h)

/-- `string_split`; each character of `delimiter` separates, as it does for `strtok`, and `*count`
is the length of the list. -/
def stringSplit (str delimiter : Option CString) : Option (List CString) :=
  match str, delimiter with
  | some str, some delimiter =>
    let tokens := words (fun c => decide (c ∈ delimiter.bytes)) str.bytes
    if tokens = [] then none
    else some (tokens.map fun token => trimWhitespace (CString.ofBytes token))
  | _, _ => none

/-- The loop of `join_strings` that calls `strcat`. -/
def joinLoop (delimiter : CString) : (result : CString) → List CString → CString
  | result, [] => result
  | result, [s] => result.append s
  | result, s :: strings => joinLoop delimiter ((result.append s).append delimiter) strings

/-- `join_strings`. -/
def joinStrings (strings : Option (List CString)) (delimiter : CString) : CString :=
  match strings with
  | none => default
  | some strings => joinLoop delimiter default strings

/-! ### Lines -/

/-- The bytes up to and with the first newline, and those behind it. -/
def takeLine : List UInt8 → List UInt8 × List UInt8
  | [] => ([], [])
  | c :: l => if c = 10 then ([c], l) else (c :: (takeLine l).1, (takeLine l).2)

/-- `getline`. -/
def getline (stream : List UInt8) : Option (List UInt8 × List UInt8) :=
  if stream = [] then none else some (takeLine stream)

/-- `read_line`: the newline is cut off, and with it what stands behind a NUL. -/
def readLine (stream : List UInt8) : Option (CString × List UInt8) :=
  (getline stream).map fun (line, rest) => ((CString.ofBytes (line.takeWhile (· ≠ 10))), rest)

/-- What `trim_whitespace` leaves in the buffer: it cuts the white space at the end off, unless there
is nothing else. -/
def trimBuffer (line : CString) : CString :=
  if strip isSpace line.bytes = [] then line else CString.ofBytes (line.bytes.rdropWhile isSpace)

/-- Appending a line to `input`. -/
def appendLine (input : Option CString) (line : CString) : CString :=
  match input with
  | none => line
  | some input => if 0 < input.length then (input.append (cstr " ")).append line else line

/-- The loop of `read_multiline_input`. -/
def multilineLoop : (fuel : Nat) → (input : Option CString) → (stream : List UInt8) →
    Option CString × List UInt8
  | 0, input, stream => (input, stream)
  | fuel + 1, input, stream =>
    match readLine stream with
    | none => (input, stream)
    | some (line, rest) =>
      if trimWhitespace line = cstr ";" then (input, rest)
      else multilineLoop fuel (some (appendLine input (trimBuffer line))) rest

/-- `read_multiline_input`: the query, and what is left of the stream.  Each turn of the loop reads
at least one byte, so the fuel is enough. -/
def readMultilineInput (stream : List UInt8) : Option CString × List UInt8 :=
  multilineLoop (stream.length + 1) none stream

end Luminix
