import Luminix.Platform

/-!
# Minification

`json_compress` of `json_io.c`.  White space outside of strings is dropped; any other kind of
compression gives a copy.
-/

namespace Luminix

open CLib

/-- `JsonCompressionType`. -/
inductive JsonCompressionType
  | none | minify | gzip | deflate | brotli | lz4 | zstd | custom
  deriving DecidableEq

/-- The loop of `json_compress`, with its flags `in_string` and `escaped`. -/
def minifyLoop : (inString escaped : Bool) → List UInt8 → List UInt8
  | _, _, [] => []
  | false, escaped, c :: l =>
    if isSpace c then minifyLoop false escaped l else c :: minifyLoop (c == 34) escaped l
  | true, escaped, c :: l => c :: minifyLoop (escaped || c != 34) (c == 92 && !escaped) l

/-- The loop takes characters away, and nothing else. -/
theorem minifyLoop_sublist (inString escaped : Bool) (l : List UInt8) :
    (minifyLoop inString escaped l).Sublist l := by
  induction l generalizing inString escaped with
  | nil => cases inString <;> exact List.Sublist.refl []
  | cons c l ih =>
    cases inString with
    | true => exact (ih _ _).cons_cons c
    | false =>
      rw [minifyLoop]
      split_ifs
      · exact (ih _ _).cons c
      · exact (ih _ _).cons_cons c

/-- What the buffer holds at the end. -/
def minified (s : CString) : CString where
  bytes := minifyLoop false false s.bytes
  nulFree h := s.nulFree ((minifyLoop_sublist _ _ _).subset h)

/-- `json_compress`; the level is not used. -/
def jsonCompress (p : Platform) (jsonStr : Option CString) (type : JsonCompressionType)
    (_level : Int) : Option CString :=
  match jsonStr with
  | none => none
  | some s =>
    if p.malloc (s.length + 1) then
      if type = .minify then some (minified s) else some s
    else none

end Luminix
