import Luminix.Equiv.Token
import Luminix.Json.Serialize

/-!
# The tokens that are written

What a database is written as, token by token.  Lists are separated by commas (`sepBy`); a value
that `%f` does not print as a JSON number (an infinity, a NaN, or a number of more than 31
characters) ends in a `none` token.
-/

namespace Luminix

open CLib

/-! ### Escaped strings -/

theorem zero_notMem_escapeByte {c : UInt8} (h : c ≠ 0) : (0 : UInt8) ∉ escapeByte c := by
  have hhex : ∀ n < 16, hexDigit n ≠ 0 := by decide
  unfold escapeByte
  split
  case h_8 =>
    split_ifs
    · have h1 := hhex (c.toNat / 16) (by have := c.toNat_lt; omega)
      have h2 := hhex (c.toNat % 16) (by omega)
      simp [h1.symm, h2.symm]
    · simpa using h.symm
  all_goals decide

/-- A string with its escapes. -/
def escaped (s : CString) : CString where
  bytes := s.bytes.flatMap escapeByte
  nulFree h := by
    obtain ⟨c, hc, h0⟩ := List.mem_flatMap.mp h
    exact zero_notMem_escapeByte (fun h => s.nulFree (h ▸ hc)) h0

theorem length_escapeByte_le (c : UInt8) : (escapeByte c).length ≤ 6 := by
  unfold escapeByte
  split
  case h_8 => split_ifs <;> simp
  all_goals decide

theorem escapeLoop_eq {dstSize : Nat} {src dst : List UInt8}
    (h : dst.length + src.length * 6 < dstSize) :
    escapeLoop dstSize src dst = dst ++ src.flatMap escapeByte := by
  induction src generalizing dst with
  | nil => simp [escapeLoop]
  | cons c src ih =>
    have hc := length_escapeByte_le c
    rw [List.length_cons] at h
    rw [escapeLoop, if_pos (by omega), if_pos (by omega), ih (by rw [List.length_append]; omega),
      List.flatMap_cons, List.append_assoc]

/-- The buffer of `json_escape_string_alloc` is large enough. -/
theorem jsonEscapeString_eq (s : CString) :
    jsonEscapeString s (s.length * 6 + 1) = (escaped s).bytes := by
  have hlen : ([] : List UInt8).length + s.bytes.length * 6 < s.length * 6 + 1 := by
    rw [CString.length, List.length_nil]
    omega
  rw [jsonEscapeString, escapeLoop_eq hlen, List.nil_append]
  rfl

theorem jsonEscapeStringAlloc_eq {p : Platform} (hp : p.Faithful) (s : CString) :
    jsonEscapeStringAlloc p s = some (escaped s).bytes := by
  rw [jsonEscapeStringAlloc, hp.malloc_eq, if_pos rfl, jsonEscapeString_eq]

/-- **An escaped string is complete and ends where its closing quote stands**: nothing is left out,
and between quotes it is read as one token, whatever follows. -/
theorem escaped_string_framed (p : Platform) (s : CString) (r : List UInt8) :
    jsonEscapeStringAlloc p s =
        (if p.malloc (s.length * 6 + 1) then some (s.bytes.flatMap escapeByte) else none) ∧
      ∃ value : CString, value.bytes = s.bytes.flatMap escapeByte ∧
        jsonParseToken (34 :: (s.bytes.flatMap escapeByte ++ 34 :: r)) = (.string value, r) := by
  constructor
  · rw [jsonEscapeStringAlloc, jsonEscapeString_eq]
    rfl
  · refine ⟨escaped s, rfl, ?_⟩
    rw [parseToken_quoted (quotable_escaped s.bytes)]
    exact congrArg (fun value => (JsonToken.string value, r)) (CString.ofBytes_bytes (escaped s))

/-- A text that needs no escape. -/
theorem escaped_of_plain {s : CString} (h : Plain s.bytes) : escaped s = s := by
  apply CString.ext
  show s.bytes.flatMap escapeByte = s.bytes
  have hbyte : ∀ c, isPlainByte c = true → escapeByte c = [c] := by
    intro c hc
    rw [isPlainByte, Bool.and_eq_true, Bool.and_eq_true, decide_eq_true_eq, bne_iff_ne,
      bne_iff_ne] at hc
    unfold escapeByte
    split
    case h_8 => exact if_neg (UInt8.not_lt.mpr hc.1.1)
    all_goals exact absurd hc (by decide)
  generalize s.bytes = l at h
  induction l with
  | nil => rfl
  | cons c l ih =>
    rw [List.flatMap_cons, hbyte c (h c List.mem_cons_self),
      ih fun d hd => h d (List.mem_cons_of_mem c hd)]
    rfl

/-! ### Objects and arrays -/

/-- The items with commas between them. -/
def sepBy : List (List JsonToken) → List JsonToken
  | [] => []
  | [x] => x
  | x :: y :: xs => x ++ .comma :: sepBy (y :: xs)

theorem sepBy_cons (x : List JsonToken) (xs : List (List JsonToken)) :
    sepBy (x :: xs) = x ++ xs.flatMap fun y => .comma :: y := by
  induction xs generalizing x with
  | nil => exact (List.append_nil x).symm
  | cons y xs ih =>
    rw [sepBy, ih, List.flatMap_cons]
    rfl

/-- A key, a colon and a value. -/
def memberTokens (key : CString) (value : List JsonToken) : List JsonToken :=
  .string key :: .colon :: value

/-- The members of an object, after its `{`. -/
def objectTail (members : List (List JsonToken)) : List JsonToken := sepBy members ++ [.objectEnd]

/-- The elements of an array, after its `[`. -/
def arrayTail (items : List (List JsonToken)) : List JsonToken := sepBy items ++ [.arrayEnd]

/-! ### Values -/

/-- The buffer that `snprintf` prints a number into. -/
def numberBufferSize : Nat := 32

/-- The tokens of a floating-point value: its text, if it is finite and fits in the buffer. -/
def floatTokens (F : IeeeFormat) (bits : Nat) (text : List UInt8) : List JsonToken :=
  if F.isFinite bits then
    if text.length < numberBufferSize then [.number (CString.ofBytes text)]
    else [.number (CString.ofBytes (text.take (numberBufferSize - 1))), .none]
  else if F.isNegative bits then [.number (cstr "-"), .none]
  else [.none]

/-- A text without its first and last character. -/
def unquoted (l : List UInt8) : CString := CString.ofBytes l.tail.dropLast

/-- The tokens of a value. -/
def valueTokens (p : Platform) (f : Field) : List JsonToken :=
  match f.type with
  | .int => [.number (CString.ofBytes (decimal f.value.intValue))]
  | .string => [.string (escaped f.value.stringValue)]
  | .float => floatTokens binary32 f.value.floatBits (floatText f)
  | .double => floatTokens binary64 f.value.doubleBits (floatText f)
  | .bool => [.boolean f.value.boolValue]
  | .datetime => [.string (unquoted (p.dateTimeText f.value.timeValue))]
  | .null => [.null]
  | .blob | .unknown => [.string (cstr "")]

/-! ### Tables -/

/-- The constraints of a column, as strings. -/
def constraintNames (k : Constraint) : List CString :=
  (if k.primaryKey then [cstr "PRIMARY KEY"] else []) ++
  (if k.unique then [cstr "UNIQUE"] else []) ++
  (if !k.nullable then [cstr "NOT NULL"] else [])

/-- The members of a column definition. -/
def columnMembers (c : Column) : List (CString × List JsonToken) :=
  [(cstr "name", [.string (escaped c.name)]),
    (cstr "type", [.string (escaped (fieldTypeToString c.type))])] ++
  if c.constraint.primaryKey || c.constraint.unique || !c.constraint.nullable then
    [(cstr "constraints",
      .arrayStart :: arrayTail ((constraintNames c.constraint).map fun s => [.string s]))]
  else []

/-- A column definition. -/
def columnTokens (c : Column) : List JsonToken :=
  .objectStart :: objectTail ((columnMembers c).map fun m => memberTokens m.1 m.2)

/-- The schema of a table, after its `{`. -/
def schemaTokens (t : Table) : List JsonToken :=
  objectTail [memberTokens (cstr "name") [.string (escaped t.name)],
    memberTokens (cstr "fields") (.arrayStart :: arrayTail (t.columns.map columnTokens)),
    memberTokens (cstr "record_count") [.number (CString.ofBytes (decimal t.recordCount))]]

/-- The columns with the fields of a record. -/
def fieldPairs : List Column → List Field → List (Column × Field)
  | [], _ => []
  | c :: cs, fields => (c, fields.headD .zero) :: fieldPairs cs fields.tail

/-- A key that is written without escapes.  It is read back whole if it can stand between quotes; if
it breaks off there, the colon is not reached. -/
def keyTokens (name : CString) : List JsonToken :=
  if quotable false name.bytes then [.string name, .colon]
  else [.string (CString.ofBytes (stringBody false name.bytes).1), .none]

/-- The fields of a record, after their `{`.  The column names stand as they are. -/
def fieldsTokens (p : Platform) (pairs : List (Column × Field)) : List JsonToken :=
  objectTail (pairs.map fun x => keyTokens x.1.name ++ valueTokens p x.2)

/-- It is known how the name is read as a key. -/
def IsKey (name : CString) : Prop := quotable false name.bytes = true ∨ breaksOff name.bytes = true

instance (name : CString) : Decidable (IsKey name) := inferInstanceAs (Decidable (_ ∨ _))

/-- It is known how the column names of every table with records are read as keys. -/
def Database.HasKeys (db : Database) : Prop :=
  ∀ t ∈ db.tables, t.records ≠ [] → ∀ c ∈ t.columns, IsKey c.name

instance (db : Database) : Decidable db.HasKeys :=
  inferInstanceAs (Decidable (∀ t ∈ db.tables, t.records ≠ [] → ∀ c ∈ t.columns, IsKey c.name))

/-- The value is not a time beyond what `localtime` converts. -/
def Field.TimeConverts (p : Platform) (f : Field) : Prop :=
  f.type = .datetime → p.localtime f.value.timeValue = true

instance (p : Platform) (f : Field) : Decidable (f.TimeConverts p) :=
  inferInstanceAs (Decidable (_ → _))

/-- So is no value that a record is written with. -/
def Record.TimesConvert (p : Platform) (columns : List Column) (r : Record) : Prop :=
  ∀ x ∈ fieldPairs columns r.fields, x.2.TimeConverts p

instance (p : Platform) (columns : List Column) (r : Record) :
    Decidable (r.TimesConvert p columns) :=
  inferInstanceAs (Decidable (∀ x ∈ fieldPairs columns r.fields, x.2.TimeConverts p))

/-- **Every time that is stored in a database is converted by `localtime`**, so that it can be
written. -/
def Database.TimesConvert (p : Platform) (db : Database) : Prop :=
  ∀ t ∈ db.tables, ∀ r ∈ t.records, r.TimesConvert p t.columns

instance (p : Platform) (db : Database) : Decidable (db.TimesConvert p) :=
  inferInstanceAs (Decidable (∀ t ∈ db.tables, ∀ r ∈ t.records, r.TimesConvert p t.columns))

/-- A record. -/
def recordTokens (p : Platform) (columns : List Column) (r : Record) : List JsonToken :=
  .objectStart :: objectTail [
    memberTokens (cstr "id") [.number (CString.ofBytes (decimal r.id))],
    memberTokens (cstr "fields") (.objectStart :: fieldsTokens p (fieldPairs columns r.fields)),
    memberTokens (cstr "metadata") (.objectStart :: objectTail [
      memberTokens (cstr "timestamp") [.string (unquoted (p.dateTimeText r.timestamp))],
      memberTokens (cstr "version") [.number (CString.ofBytes (unsignedDecimal r.version))]])]

/-- A table, as an element of the array of tables. -/
def tableTokens (p : Platform) (t : Table) : List JsonToken :=
  .objectStart :: objectTail [
    memberTokens (cstr "schema") (.objectStart :: schemaTokens t),
    memberTokens (cstr "records") (.arrayStart :: arrayTail (t.records.map (recordTokens p t.columns)))]

/-- The metadata of the file, after their `{`. -/
def metadataTokens (p : Platform) (db : Database) : List JsonToken :=
  objectTail [memberTokens (cstr "name") [.string (escaped (getDatabaseName db))],
    memberTokens (cstr "version") [.string (cstr "1.0.0")],
    memberTokens (cstr "created_at") [.string (unquoted (p.dateTimeText p.now))],
    memberTokens (cstr "table_count") [.number (CString.ofBytes (decimal db.tableCount))]]

/-- A file. -/
def fileTokens (p : Platform) (db : Database) : List JsonToken :=
  .objectStart :: objectTail [memberTokens (cstr "metadata") (.objectStart :: metadataTokens p db),
    memberTokens (cstr "tables") (.arrayStart :: arrayTail (db.tables.map (tableTokens p)))]

end Luminix
