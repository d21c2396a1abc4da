import Luminix.CLib.Buffer
import Luminix.CLib.Integer
import Luminix.CLib.Search
import Luminix.Platform

/-!
# Strings and file names

`string_replace` and `get_filename_without_extension` of `utils.c`.  The two loops of the first have
fuel, and no result without it; the second of them returns what it writes, and where.
-/

namespace Luminix

open CLib

/-! ### Replacing -/

/-- The loop that counts the occurrences, at index `i`.  It does not read outside of `str`. -/
def countLoop (str old : CString) : (fuel : Nat) → (i count : Int) → Option (Int × Int)
  | 0, _, _ => none
  | fuel + 1, i, count =>
    if i < 0 ∨ str.length < i then none
    else if i = str.length then some (i, count)
    else if strstr old.bytes (str.bytes.drop i.toNat) = some 0 then
      -- `i += old_len - 1` is a `size_t` before it is an `int` again
      countLoop str old fuel (intWrap (intWrap (i + (old.length - 1)) + 1)) (intWrap (count + 1))
    else countLoop str old fuel (intWrap (i + 1)) count

/-- How much memory `string_replace` allocates, as a `size_t`. -/
def replaceSize (old new : CString) (i count : Int) : Nat :=
  ((i + count * ((new.length : Int) - old.length) + 1) % 18446744073709551616).toNat

/-- The loop that writes the result, and the terminator behind it: what is written from which index
on.  `strcpy` writes a terminator, too. -/
def replaceLoop (old new : CString) :
    (fuel : Nat) → (str : List UInt8) → (i : Int) → Option (List (Int × List UInt8))
  | 0, _, _ => none
  | _ + 1, [], i => some [(i, [0])]
  | fuel + 1, c :: str, i =>
    if strstr old.bytes (c :: str) = some 0 then
      (replaceLoop old new fuel ((c :: str).drop old.length) (intWrap (i + new.length))).map
        ((i, new.bytes ++ [0]) :: ·)
    else (replaceLoop old new fuel str (intWrap (i + 1))).map ((i, [c]) :: ·)

/-- `string_replace`.  What `malloc` returns holds the bytes `fresh`. -/
def stringReplace (p : Platform) (fresh : Nat → UInt8) (fuel : Nat) (str old new : Option CString) :
    Option (Option CString) :=
  match str, old, new with
  | some str, some old, some new => do
    let (i, count) ← countLoop str old fuel 0 0
    let size := replaceSize old new i count
    if p.malloc size then
      let writes ← replaceLoop old new fuel str.bytes 0
      let result ← writeAll ((List.range size).map fresh) writes
      some (some (CString.ofBytes result))
    else some none
  | _, _, _ => some none

/-! ### File names -/

/-- Where the last slash is, or the last backslash where there is no slash. -/
def slashIndex (filename : CString) : Option Nat :=
  (strrchr 47 filename.bytes).or (strrchr 92 filename.bytes)

/-- A difference of two pointers, as a `size_t`. -/
def sizeOfDiff (d : Int) : Nat := if d < 0 then (d + 18446744073709551616).toNat else d.toNat

/-- `get_filename_without_extension`. -/
def getFilenameWithoutExtension (p : Platform) (filename : Option CString) : Option CString :=
  match filename with
  | none => none
  | some filename =>
    match strrchr 46 filename.bytes with
    | none => if p.malloc (filename.length + 1) then some filename else none
    | some dot =>
      match slashIndex filename with
      | some slash =>
        let len := sizeOfDiff ((dot : Int) - slash - 1)
        if p.malloc (len + 1) then some ((filename.drop (slash + 1)).truncate len) else none
      | none => if p.malloc (dot + 1) then some (filename.truncate dot) else none

end Luminix
