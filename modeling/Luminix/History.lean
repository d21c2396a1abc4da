import Luminix.CLib.CString
import Luminix.Machine.RingBuffer

/-!
# The history of queries

`add_to_history` and the walk of `query_history` in `main.c`.  The rows of `g_history`, with
`g_history_index` and `g_history_count`, are a ring buffer of strings.
-/

namespace Luminix

open CLib

/-- The number of rows of `g_history`. -/
def historySize : Nat := 100

/-- `MAX_QUERY_LEN`, as `main.c` sees it. -/
def maxQueryLen : Nat := 4096

/-- `g_history`, `g_history_index` and `g_history_count`. -/
abbrev History : Type := RingBuffer CString historySize

/-- The static data at the start. -/
def History.start : History := RingBuffer.empty default (by decide)

/-- `add_to_history`.  A query is compared with the row that is written next. -/
def addToHistory (h : History) (query : Option CString) : History :=
  match query with
  | none => h
  | some query =>
    if query.length = 0 then h
    else if 0 < h.count ∧ h.next = query then h
    else h.push (query.truncate (maxQueryLen - 1))

/-- The rows that `query_history` goes through. -/
def queryHistory (h : History) : List CString := h.contents

end Luminix
