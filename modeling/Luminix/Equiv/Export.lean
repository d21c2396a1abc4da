import Luminix.CLib.Csv
import Luminix.Export

/-!
# What is exported

`export_to_csv` writes the names of the columns as they are, and strings between quotes, whatever is
in them.  So what it writes is decoded to the table exactly if no name has a comma, a quote or a line
break in it, and no string a quote (`csv_export_iff`).
-/

namespace Luminix

open CLib

/-! ### Rows -/

/-- `record->fields[i]` for each column. -/
def fieldsRead : List Column → List Field → List Field
  | [], _ => []
  | _ :: cs, fields => fields.headD .zero :: fieldsRead cs fields.tail

/-- The value of a field: of an `INT` the number, of a `STRING` the string, of a `BOOL` its name, and
of the others what is printed. -/
def csvValue (f : Field) : List UInt8 :=
  if f.type = .string then f.value.stringValue.bytes else csvField f

/-- One row with the names, and one for each record. -/
def csvTableRows (t : Table) : List (List (List UInt8)) :=
  (ascii "id" :: t.columns.map fun c => c.name.bytes) ::
    t.records.map fun r => decimal r.id :: (fieldsRead t.columns r.fields).map csvValue

/-- The file that is written is decoded to the rows of the table, each of which has a cell for the id
and one for each column. -/
def ExportsTable (p : Platform) (counter : Int) (files : Files) (dbPath exportPath tableName : CString)
    (t : Table) : Prop :=
  ∃ files' text, exportToCsv p counter files dbPath exportPath (some tableName) = some (0, files') ∧
    files' exportPath = some text ∧ decodeCsv text = some (csvTableRows t) ∧
    ∀ row ∈ csvTableRows t, row.length = t.fieldCount + 1

/-- No name of a column ends its cell, and no string has a quote in it. -/
def CsvSafe (t : Table) : Prop :=
  (∀ c ∈ t.columns, ∀ b ∈ c.name.bytes, isCsvText b = true) ∧
    ∀ r ∈ t.records, ∀ f ∈ fieldsRead t.columns r.fields, f.type = .string →
      34 ∉ f.value.stringValue.bytes

instance (t : Table) : Decidable (CsvSafe t) := inferInstanceAs (Decidable (_ ∧ _))

theorem length_fieldsRead (cs : List Column) (fields : List Field) :
    (fieldsRead cs fields).length = cs.length := by
  induction cs generalizing fields with
  | nil => rfl
  | cons c cs ih => rw [fieldsRead, List.length_cons, List.length_cons, ih]

theorem length_of_mem_csvTableRows {t : Table} {row : List (List UInt8)} (h : row ∈ csvTableRows t) :
    row.length = t.fieldCount + 1 := by
  rcases List.mem_cons.mp h with rfl | h
  · rw [List.length_cons, List.length_map, Table.fieldCount]
  · obtain ⟨r, -, rfl⟩ := List.mem_map.mp h
    rw [List.length_cons, List.length_map, length_fieldsRead, Table.fieldCount]

/-! ### Cells -/

theorem isCsvText_of_isDigit {c : UInt8} (h : isDigit c = true) : isCsvText c = true := by
  simp only [isCsvText, isDigit, Bool.and_eq_true, decide_eq_true_eq, Bool.not_eq_true',
    Bool.or_eq_false_iff, beq_eq_false_iff_ne, UInt8.le_iff_toNat_le, ← UInt8.toNat_inj, ne_eq,
    UInt8.reduceToNat] at *
  omega

theorem isCsvText_decimal (n : Int) : ∀ c ∈ decimal n, isCsvText c = true := by
  intro c hc
  rw [decimal] at hc
  split_ifs at hc
  · rcases List.mem_cons.mp hc with rfl | hc
    · rfl
    · exact isCsvText_of_isDigit (isDigit_of_mem_natDecimal hc)
  · exact isCsvText_of_isDigit (isDigit_of_mem_natDecimal hc)

theorem isCsvText_fixedText (F : IeeeFormat) (d bits : Nat) :
    ∀ c ∈ fixedText F d bits, isCsvText c = true := by
  have hsign : ∀ c ∈ (if F.isNegative bits then [45] else [] : List UInt8), isCsvText c = true := by
    split_ifs
    · exact List.forall_mem_singleton.mpr rfl
    · exact nofun
  intro c hc
  rw [fixedText] at hc
  by_cases hfinite : F.isFinite bits = true
  · rw [if_pos hfinite, List.mem_append, List.mem_append, List.mem_cons] at hc
    rcases hc with (hc | hc) | rfl | hc
    · exact hsign c hc
    · exact isCsvText_of_isDigit (isDigit_of_mem_natDecimal hc)
    · rfl
    · exact isCsvText_of_isDigit (isDigit_of_mem_decimals hc)
  · have hinf : ∀ c ∈ ascii "inf", isCsvText c = true := List.forall_iff_forall_mem.mp (by decide)
    have hnan : ∀ c ∈ ascii "nan", isCsvText c = true := List.forall_iff_forall_mem.mp (by decide)
    rw [if_neg hfinite] at hc
    by_cases hfraction : F.fraction bits = 0
    · rw [if_pos hfraction, List.mem_append] at hc
      exact hc.elim (hsign c) (hinf c)
    · rw [if_neg hfraction, List.mem_append] at hc
      exact hc.elim (hsign c) (hnan c)

/-- Only a string can end its cell. -/
theorem isCsvText_csvField {f : Field} (hf : f.type ≠ .string) :
    ∀ c ∈ csvField f, isCsvText c = true := by
  rw [csvField]
  split
  · exact isCsvText_decimal _
  · next h => exact absurd h hf
  · exact isCsvText_fixedText _ _ _
  · exact isCsvText_fixedText _ _ _
  · split_ifs <;> exact List.forall_iff_forall_mem.mp (by decide)
  · exact nofun

/-- The cell that a field is written to. -/
def csvFieldCell (f : Field) : CsvCell :=
  if f.type = .string then .quoted f.value.stringValue.bytes else .plain (csvField f)

theorem text_csvFieldCell (f : Field) : (csvFieldCell f).text = csvField f := by
  rw [csvFieldCell]
  split_ifs with h
  · rw [csvField, h]
    rfl
  · rfl

theorem content_csvFieldCell (f : Field) : (csvFieldCell f).content = csvValue f := by
  rw [csvFieldCell, csvValue]
  split_ifs <;> rfl

theorem safe_csvFieldCell (f : Field) :
    (csvFieldCell f).Safe ↔ (f.type = .string → 34 ∉ f.value.stringValue.bytes) := by
  rw [csvFieldCell]
  split_ifs with h
  · exact ⟨fun hs _ => hs, fun hs => hs h⟩
  · exact iff_of_true (isCsvText_csvField h) fun hs => absurd hs h

/-! ### The table -/

/-- The cells that the rows of a table are written to. -/
def csvTableCells (t : Table) : List (CsvCell × List CsvCell) :=
  (.plain (ascii "id"), t.columns.map fun c => .plain c.name.bytes) ::
    t.records.map fun r => (.plain (decimal r.id), (fieldsRead t.columns r.fields).map csvFieldCell)

theorem csvFields_eq (cs : List Column) (fields : List Field) :
    csvFields cs fields =
      ((fieldsRead cs fields).map csvFieldCell).flatMap fun cell => 44 :: cell.text := by
  induction cs generalizing fields with
  | nil => rfl
  | cons c cs ih =>
    rw [csvFields, fieldsRead, List.map_cons, List.flatMap_cons, text_csvFieldCell, ih]

theorem tableCsv_eq (t : Table) : tableCsv t = csvText (csvTableCells t) := by
  have hheader : csvHeader t.columns =
      csvRowText (.plain (ascii "id")) (t.columns.map fun c => .plain c.name.bytes) := by
    rw [csvHeader, csvRowText, List.flatMap_map]
    rfl
  rw [tableCsv, csvTableCells, csvText, List.flatMap_cons, List.flatMap_map, hheader]
  congr 1
  refine List.flatMap_congr fun r _ => ?_
  rw [csvRecord, csvFields_eq]
  rfl

theorem csvTableRows_eq (t : Table) : csvTableRows t =
    (csvTableCells t).map fun row => (row.1 :: row.2).map CsvCell.content := by
  have hcontent : CsvCell.content ∘ csvFieldCell = csvValue := funext content_csvFieldCell
  rw [csvTableRows, csvTableCells, List.map_cons, List.map_cons, List.map_map, List.map_map]
  congr 1
  refine List.map_congr_left fun r _ => ?_
  rw [Function.comp_apply, List.map_cons, List.map_map, hcontent]
  rfl

theorem safe_csvTableCells (t : Table) :
    (∀ row ∈ csvTableCells t, ∀ c ∈ row.1 :: row.2, c.Safe) ↔ CsvSafe t := by
  have hid : (CsvCell.plain (ascii "id")).Safe := by
    show ∀ c ∈ ascii "id", isCsvText c = true
    exact List.forall_iff_forall_mem.mp (by decide)
  have hrecord : ∀ r : Record, (CsvCell.plain (decimal r.id)).Safe := fun r => isCsvText_decimal r.id
  simp only [csvTableCells, CsvSafe, List.forall_mem_cons, List.forall_mem_map, hid, hrecord,
    safe_csvFieldCell, true_and]
  rfl

/-- **What is written is decoded to the table** exactly if the names and the strings are safe. -/
theorem decode_tableCsv_iff (t : Table) :
    decodeCsv (tableCsv t) = some (csvTableRows t) ↔ CsvSafe t := by
  rw [tableCsv_eq, csvTableRows_eq, decode_csvText_iff, safe_csvTableCells]

section

variable {p : Platform} {counter : Int} {files : Files} {dbPath exportPath tableName : CString}
  {s : Store} {t : Table}

/-- The call writes what is printed for the table. -/
theorem exportsTable_iff (hload : dbLoadFromFile p counter (files dbPath) = some (some s))
    (htable : ((dbGetTable s.db tableName).bind fun i => s.db.tables[i]?) = some t)
    (hopens : p.opensForWriting = true) :
    ExportsTable p counter files dbPath exportPath tableName t ↔
      decodeCsv (tableCsv t) = some (csvTableRows t) := by
  have hexport : exportToCsv p counter files dbPath exportPath (some tableName) =
      some (0, Function.update files exportPath (some (tableCsv t))) := by
    rw [exportToCsv, hload]
    dsimp only
    rw [Option.bind_some, htable]
    dsimp only
    rw [if_pos hopens]
  constructor
  · rintro ⟨files', text, hcall, hfile, hdecode, -⟩
    obtain ⟨-, rfl⟩ := Prod.mk.inj (Option.some.inj (hexport.symm.trans hcall))
    rw [Function.update_self] at hfile
    rwa [Option.some.inj hfile]
  · intro hdecode
    exact ⟨_, _, hexport, Function.update_self _ _ _, hdecode, fun _ => length_of_mem_csvTableRows⟩

/-- **What is exported is decoded to the table** exactly if no name of a column has a comma, a quote
or a line break in it, and no string has a quote. -/
theorem csv_export_iff (hload : dbLoadFromFile p counter (files dbPath) = some (some s))
    (htable : ((dbGetTable s.db tableName).bind fun i => s.db.tables[i]?) = some t)
    (hopens : p.opensForWriting = true) :
    ExportsTable p counter files dbPath exportPath tableName t ↔ CsvSafe t :=
  (exportsTable_iff hload htable hopens).trans (decode_tableCsv_iff t)

end

/-! ### Two files -/

/-- One file, with this text. -/
def oneFile (text : List UInt8) : Files := fun path => if path = cstr "a.db" then some text else none

/-- The table that is loaded from it. -/
def storedTable (text : List UInt8) : Option Table :=
  ((dbLoadFromFile .epoch 1000 (oneFile text (cstr "a.db"))).bind id).bind fun s =>
    (dbGetTable s.db (cstr "t")).bind fun i => s.db.tables[i]?

theorem exists_storedTable {text : List UInt8} (h : (storedTable text).isSome = true) : ∃ s t,
    dbLoadFromFile .epoch 1000 (oneFile text (cstr "a.db")) = some (some s) ∧
      ((dbGetTable s.db (cstr "t")).bind fun i => s.db.tables[i]?) = some t ∧
      storedTable text = some t := by
  obtain ⟨t, ht⟩ := Option.isSome_iff_exists.mp h
  obtain ⟨s, hs, htable⟩ := Option.bind_eq_some_iff.mp ht
  obtain ⟨loaded, hload, hloaded⟩ := Option.bind_eq_some_iff.mp hs
  exact ⟨s, t, hloaded ▸ hload, htable, ht⟩

/-- A table with a name that has a comma in it. -/
def namesText : List UInt8 :=
  ascii "\x7b\"tables\":[\x7b\"schema\":\x7b\"name\":\"t\",\"fields\":[\x7b\"name\":\"id\"," ++
    ascii "\"type\":\"INT\"\x7d,\x7b\"name\":\"who\",\"type\":\"STRING\"\x7d]\x7d," ++
    ascii "\"records\":[\x7b\"id\":7,\"fields\":\x7b\"id\":7,\"who\":\"King, Ada\"\x7d\x7d]\x7d]\x7d"

theorem csv_export_names : ∃ s t,
    dbLoadFromFile .epoch 1000 (oneFile namesText (cstr "a.db")) = some (some s) ∧
      ((dbGetTable s.db (cstr "t")).bind fun i => s.db.tables[i]?) = some t ∧
      t.records.length = 1 ∧
      ExportsTable .epoch 1000 (oneFile namesText) (cstr "a.db") (cstr "a.csv") (cstr "t") t := by
  obtain ⟨s, t, hload, htable, ht⟩ :=
    exists_storedTable (by decide +kernel : (storedTable namesText).isSome = true)
  have hsafe : ∀ t ∈ storedTable namesText, CsvSafe t ∧ t.records.length = 1 := by decide +kernel
  exact ⟨s, t, hload, htable, (hsafe t ht).2,
    (csv_export_iff hload htable rfl).mpr (hsafe t ht).1⟩

/-- A table whose one column has a comma in its name. -/
def commaText : List UInt8 :=
  ascii "\x7b\"tables\":[\x7b\"name\":\"t\",\"schema\":\x7b\"fields\":[\x7b\"name\":\"a,b\"," ++
    ascii "\"type\":\"INT\"\x7d]\x7d\x7d]\x7d"

theorem csv_export_comma :
    ¬∀ (p : Platform) (counter : Int) (files : Files) (dbPath exportPath tableName : CString)
      (s : Store) (t : Table), dbLoadFromFile p counter (files dbPath) = some (some s) →
      ((dbGetTable s.db tableName).bind fun i => s.db.tables[i]?) = some t →
      p.opensForWriting = true → (∀ c ∈ t.columns, c.type = .int ∨ c.type = .string ∨ c.type = .bool) →
      ExportsTable p counter files dbPath exportPath tableName t := by
  intro h
  obtain ⟨s, t, hload, htable, ht⟩ :=
    exists_storedTable (by decide : (storedTable commaText).isSome = true)
  have htypes : ∀ t ∈ storedTable commaText,
      ∀ c ∈ t.columns, c.type = .int ∨ c.type = .string ∨ c.type = .bool := by decide
  have hrows : ∀ t ∈ storedTable commaText, decodeCsv (tableCsv t) ≠ some (csvTableRows t) := by
    decide
  have hexport := h .epoch 1000 (oneFile commaText) (cstr "a.db") (cstr "a.csv") (cstr "t") s t
    hload htable rfl (htypes t ht)
  exact hrows t ht ((exportsTable_iff hload htable rfl).mp hexport)

end Luminix
