import Luminix.Backup
import Luminix.Json.File

/-!
# Exporting

`export_to_csv`, `export_to_json` and `import_from_json` of `export_import.c`, over the contents of
files by their paths.  What they tell the user is left out.
-/

namespace Luminix

open CLib

/-- What is printed for a field. -/
def csvField (f : Field) : List UInt8 :=
  match f.type with
  | .int => decimal f.value.intValue
  | .string => 34 :: (f.value.stringValue.bytes ++ [34])
  | .float => fixedText binary32 2 f.value.floatBits
  | .double => fixedText binary64 4 f.value.doubleBits
  | .bool => if f.value.boolValue then ascii "true" else ascii "false"
  | _ => []

/-- The loop over the fields, which reads `record->fields[i]` for each column. -/
def csvFields : List Column → List Field → List UInt8
  | [], _ => []
  | _ :: cs, fields => 44 :: csvField (fields.headD .zero) ++ csvFields cs fields.tail

/-- The line with the names of the columns. -/
def csvHeader (columns : List Column) : List UInt8 :=
  ascii "id" ++ (columns.flatMap fun c => 44 :: c.name.bytes) ++ [10]

/-- The line of a record. -/
def csvRecord (columns : List Column) (r : Record) : List UInt8 :=
  decimal r.id ++ csvFields columns r.fields ++ [10]

/-- What is printed for a table. -/
def tableCsv (t : Table) : List UInt8 :=
  csvHeader t.columns ++ t.records.flatMap (csvRecord t.columns)

/-- `export_to_csv`: the code and the files then, or none where `db_load_from_file` has none. -/
def exportToCsv (p : Platform) (counter : Int) (files : Files) (dbPath exportPath : CString)
    (tableName : Option CString) : Option (Int × Files) :=
  match dbLoadFromFile p counter (files dbPath) with
  | none => none
  | some none => some (-1, files)
  | some (some s) =>
    match (tableName.bind (dbGetTable s.db)).bind fun i => s.db.tables[i]? with
    | none => some (-1, files)
    | some t =>
      if p.opensForWriting then
        some (0, Function.update files exportPath (some (tableCsv t)))
      else some (-1, files)

/-- What `export_to_json` and `import_from_json` do: one file is loaded, and what has been loaded is
saved to the other one.  The code, the files and the counter then, which is where it was also after
a load that fails (`globalCounter_load`). -/
def transferJson (p : Platform) (options : JsonSaveOptions) (counter : Int) (files : Files)
    (sourcePath destPath : CString) : Int × Files × Int :=
  match dbLoadFromFile p counter (files sourcePath) with
  | some (some s) =>
    let saved := saveOver p (some options) (files destPath) s.db
    (if saved.1 = .success then 0 else -1, Function.update files destPath saved.2, s.globalCounter)
  | _ => (-1, files, counter)

/-- `export_to_json`. -/
def exportToJson (p : Platform) : Int → Files → CString → CString → Int × Files × Int :=
  transferJson p ⟨false, false⟩

/-- `import_from_json`. -/
def importFromJson (p : Platform) : Int → Files → CString → CString → Int × Files × Int :=
  transferJson p ⟨false, false⟩

end Luminix
