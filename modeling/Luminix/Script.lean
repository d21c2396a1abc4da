import Luminix.CLib.Stream
import Luminix.CLib.Words
import Luminix.History
import Luminix.Platform

/-!
# Scripts

`execute_script_interactive` of `main.c` for a script that could be opened, with `trim_string` of
`utils.c`.  The lines of the script are appended to the text in `query`, which goes to
`db_execute_query` and is cleared when a line with a semicolon has been appended.  What is printed,
and what becomes of the results, is left out.
-/

namespace Luminix

open CLib

/-- The size of the buffer `query`. -/
def scriptQuerySize : Nat := maxQueryLen * 10

/-- `trim_string`. -/
def trimString (s : CString) : CString where
  bytes := strip isSpace s.bytes
  nulFree h := s.nulFree (mem_of_mem_strip h)

/-- Comments and empty lines. -/
def isSkipped (line : CString) : Bool :=
  line.bytes.head? == some 35 || line.bytes.head? == some 45 || line.length == 0

/-- The text in `query` after `strcat`, and whether it is executed then. -/
structure ScriptStep where
  query : CString
  executed : Bool
  deriving DecidableEq

/-- The loop over the texts that `fgets` puts into `line`: each time that `strcat` is called. -/
def scriptSteps : (query : CString) → List (List UInt8) → List ScriptStep
  | _, [] => []
  | query, buffer :: buffers =>
    let line := trimString (CString.ofBytes buffer)
    if isSkipped line then scriptSteps query buffers
    else if 59 ∈ line.bytes then ⟨query.append line, true⟩ :: scriptSteps default buffers
    else ⟨query.append line, false⟩ :: scriptSteps (query.append line) buffers

/-- The loop over a whole script. -/
def scriptRun (file : List UInt8) : List ScriptStep :=
  scriptSteps default (fileLines maxQueryLen file)

/-- `execute_script_interactive`: the texts that it passes to `db_execute_query`. -/
def executeScriptInteractive (file : List UInt8) : Except Overrun (List CString) :=
  if ∀ s ∈ scriptRun file, s.query.length < scriptQuerySize then
    .ok (((scriptRun file).filter (·.executed)).map (·.query))
  else .error .overrun

end Luminix
