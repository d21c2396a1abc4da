import Luminix.CLib.Integer
import Luminix.Platform

/-!
# Pretty printing

`json_pretty_print` of `json_io.c`.  It prints into a buffer of twice the length of the text, and
stops in front of a character when all but one byte of the buffer are used.  What it has printed by
then is kept as a text, whose length is the index `j` of the next write; a write beyond the buffer
has no defined outcome (`Overrun`).
-/

namespace Luminix

open CLib

/-- The variables of the loop: `formatted` up to `j`, `level`, `in_string` and `escaped`. -/
structure PrettyState where
  out : List UInt8
  level : Int
  inString : Bool
  escaped : Bool
  deriving DecidableEq

/-- How far the loop over an indentation counts; the product is one of `int`s. -/
def indentWidth (level indent : Int) : Nat := (intWrap (level * indent)).toNat

/-- The loop over an indentation, `n` blanks long. -/
def putBlanks (bound : Nat) : (n : Nat) → List UInt8 → List UInt8
  | 0, out => out
  | n + 1, out => if out.length < bound then putBlanks bound n (out ++ [32]) else out

/-- One round of the loop. -/
def prettyChar (bound : Nat) (indent : Int) (s : PrettyState) (c : UInt8) : PrettyState :=
  if s.inString then
    { s with
      out := s.out ++ [c]
      inString := s.escaped || c != 34
      escaped := c == 92 && !s.escaped }
  else if c = 123 ∨ c = 91 then
    { s with
      out := putBlanks bound (indentWidth (s.level + 1) indent) (s.out ++ [c, 10])
      level := s.level + 1 }
  else if c = 125 ∨ c = 93 then
    { s with
      out := putBlanks bound (indentWidth (s.level - 1) indent) (s.out ++ [10]) ++ [c]
      level := s.level - 1 }
  else if c = 44 then
    { s with out := putBlanks bound (indentWidth s.level indent) (s.out ++ [c, 10]) }
  else if c = 58 then { s with out := s.out ++ [c, 32] }
  else { s with out := s.out ++ [c], inString := c == 34 }

/-- The loop of `json_pretty_print`. -/
def prettyLoop (bound : Nat) (indent : Int) : List UInt8 → PrettyState → PrettyState
  | [], s => s
  | c :: l, s =>
    if s.out.length < bound then prettyLoop bound indent l (prettyChar bound indent s c) else s

/-- What is written to `formatted` before the terminator.  For an empty text the bound of the source
wraps, but is never asked for. -/
def prettyText (s : CString) (indent : Int) : List UInt8 :=
  (prettyLoop (s.length * 2 - 1) indent s.bytes ⟨[], 0, false, false⟩).out

/-- The indices at which `formatted` is written, in order: `j` from zero on, the terminator last. -/
def prettyWrites (s : CString) (indent : Int) : List Nat :=
  List.range ((prettyText s indent).length + 1)

/-- `json_strdup`. -/
def jsonStrdup (p : Platform) (s : CString) : Option CString :=
  if p.malloc (s.length + 1) then some s else none

/-- `json_pretty_print`. -/
def jsonPrettyPrint (p : Platform) (jsonStr : Option CString) (indent : Int) :
    Except Overrun (Option CString) :=
  match jsonStr with
  | none => .ok none
  | some s =>
    match jsonStrdup p s with
    | none => .ok none
    | some result =>
      if 0 < indent ∧ p.malloc (result.length * 2) = true then
        if ∀ j ∈ prettyWrites result indent, j < result.length * 2 then
          .ok (some (CString.ofBytes (prettyText result indent)))
        else .error .overrun
      else .ok (some result)

end Luminix
