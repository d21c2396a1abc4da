import Luminix.CLib.Search
import Mathlib.Data.List.DropRight

/-!
# Queries

The query parser of `parser.c`, `query_validate` of `query_engine.c` and `validate_table_name` of
`utils.c`.  Keywords are looked for anywhere in the text, without regard to case, and a token ends at
the first of its end characters, some of which are letters.  Strings that are cut out of the text are
lists of bytes.
-/

namespace Luminix

open CLib

/-! ### Names -/

/-- `isalpha`. -/
def isAlpha (c : UInt8) : Bool := (65 ≤ c && c ≤ 90) || (97 ≤ c && c ≤ 122)

/-- `toupper` on ASCII. -/
def toUpper (c : UInt8) : UInt8 := if 97 ≤ c && c ≤ 122 then c - 32 else c

def maxTableNameLen : Nat := 64

/-- The names `validate_table_name` refuses in any case. -/
def reservedKeywords : List CString :=
  ["SELECT", "INSERT", "UPDATE", "DELETE", "CREATE", "DROP", "ALTER", "TABLE", "INDEX", "DATABASE",
    "FROM", "WHERE", "AND", "OR", "NOT", "NULL", "TRUE", "FALSE", "INT", "FLOAT", "STRING", "BOOL",
    "DATE", "PRIMARY", "KEY", "FOREIGN", "REFERENCES", "UNIQUE", "CHECK", "DEFAULT"].map cstr

/-- `validate_table_name`. -/
def validateTableName (name : CString) : Bool :=
  match name.bytes with
  | [] => false
  | c :: rest =>
    name.length ≤ maxTableNameLen && (isAlpha c || c == 95) &&
      (rest.all fun c => isAlpha c || isDigit c || c == 95) &&
      !reservedKeywords.any fun keyword => keyword.bytes == name.bytes.map toUpper

/-! ### Tokens -/

/-- `trim_spaces`. -/
def trimSpaces (str : List UInt8) : List UInt8 := (str.dropWhile isSpace).rdropWhile isSpace

/-- `extract_token`. -/
def extractToken (str startKeyword endCharacters : List UInt8) : Option (List UInt8) :=
  (strstr (startKeyword.map toLower) (str.map toLower)).map fun pos =>
    let actualStart := (str.drop (pos + startKeyword.length)).dropWhile isSpace
    trimSpaces (actualStart.takeWhile fun c => !endCharacters.contains c)

/-- The tokens that `strtok` with `","` finds. -/
def strtokCommas (str : List UInt8) : List (List UInt8) := (str.splitOn 44).filter (· ≠ [])

/-! ### Conditions -/

/-- `Condition`. -/
structure Condition where
  field : List UInt8
  op : List UInt8
  value : List UInt8
  deriving DecidableEq

/-- The operators in the order in which they are looked for. -/
def conditionOps : List (List UInt8) :=
  [ascii "!=", ascii ">=", ascii "<=", ascii "=", ascii ">", ascii "<"]

/-- A value between quotes is taken without them. -/
def stripQuotes : List UInt8 → List UInt8
  | [] => []
  | q :: rest =>
    if (q == 39 || q == 34) && !rest.isEmpty && rest.getLast? == some q then rest.dropLast
    else q :: rest

/-- `parse_condition`: cut at the first operator of the list that occurs at all. -/
def parseCondition (cond : List UInt8) : Option Condition :=
  (conditionOps.findSome? fun op => (strstr op cond).map fun i => (op, i)).map fun (op, i) =>
    ⟨trimSpaces (cond.take i), op, stripQuotes (trimSpaces (cond.drop (i + op.length)))⟩

/-! ### Queries -/

/-- The members of `QueryType` that the parser sets. -/
inductive QueryType
  | select | insert | update | delete | createTable | dropTable
  deriving DecidableEq, Repr

/-- `Query`; there is at most one condition. -/
structure Query where
  type : QueryType
  table : Option (List UInt8)
  fields : List (List UInt8)
  conditions : Option Condition
  deriving DecidableEq

/-- The keywords the text may start with, and what `parse_query` does behind each. -/
def parseHead (str : List UInt8) : Query :=
  let starts (keyword : List UInt8) := keyword.isPrefixOf (str.map toLower)
  if starts (ascii "select") then
    { type := .select
      table := extractToken str (ascii "from") (ascii " \t\r\n(Ww")
      fields := match extractToken str (ascii "select") (ascii "Ff") with
        | some token => (strtokCommas token).map trimSpaces
        | none => []
      conditions := none }
  else if starts (ascii "insert") then
    ⟨.insert, extractToken str (ascii "into") (ascii " \t\r\n("), [], none⟩
  else if starts (ascii "update") then
    ⟨.update, extractToken str (ascii "update") (ascii " \t\r\nS"), [], none⟩
  else if starts (ascii "delete") then
    ⟨.delete, extractToken str (ascii "from") (ascii " \t\r\nW"), [], none⟩
  else if starts (ascii "create") then
    ⟨.createTable, extractToken str (ascii "table") (ascii " \t\r\n("), [], none⟩
  else if starts (ascii "drop") then
    ⟨.dropTable, extractToken str (ascii "table") (ascii " \t\r\n;"), [], none⟩
  else ⟨.select, none, [], none⟩

/-- The condition behind the first `where`. -/
def parseWhere (str : List UInt8) : Option Condition :=
  match strstr (ascii "where") (str.map toLower) with
  | some pos => parseCondition ((str.drop (pos + 5)).dropWhile isSpace)
  | none => none

/-- `parse_query` for a text that is not null. -/
def parseQuery (queryStr : CString) : Query :=
  let str := queryStr.bytes.dropWhile isSpace
  { parseHead str with conditions := parseWhere str }

/-! ### Validation -/

/-- The `first_word` of `query_validate`: up to white space, but at most 15 characters. -/
def firstWord (query : List UInt8) : List UInt8 :=
  (((query.dropWhile isSpace).takeWhile (!isSpace ·)).take 15).map toLower

/-- `query_validate`: the first word is one of the keywords. -/
def queryValidate (query : CString) : Bool :=
  [ascii "select", ascii "insert", ascii "update", ascii "delete", ascii "create",
    ascii "drop"].contains (firstWord query.bytes)

end Luminix
