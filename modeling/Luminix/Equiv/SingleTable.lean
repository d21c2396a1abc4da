import Luminix.Equiv.Import
import Luminix.Equiv.RoundTrip
import Luminix.Equiv.TableText

/-!
# A table, written and read

What `table_to_json` writes of a clean table, `json_to_table` adds to another database, unless the
name is taken there or the database is full (`table_text_returns`).
-/

namespace Luminix

open CLib TokenReader

variable {p : Platform}

/-! ### The schema -/

/-- The object of a table, from its brace to the end of the schema. -/
theorem settles_bracedSchema (db : Database) (t : Table) {rest : List JsonToken} {l l' : List UInt8}
    (h : Reads jsonParseToken .none (.objectStart ::
      (memberTokens (cstr "schema") (.objectStart :: schemaTokens t) ++ rest)) l l') :
    Settles rest l' (loadSchema db t) (jsonParseTableSchema db l) := by
  obtain ⟨l₀, hbrace, h⟩ := h.head (by simp)
  obtain ⟨l₁, hkey, h⟩ := h.head (by simp)
  obtain ⟨l₂, hcolon, h⟩ := h.head (by simp)
  obtain ⟨l₃, hstart, h⟩ := h.head (by simp)
  have h0 := length_of_parseToken hbrace
  have h1 := length_parseToken_lt hkey (by simp) (by simp)
  have h2 := length_of_parseToken hcolon
  have h3 := length_of_parseToken hstart
  have hloop := settles_schemaLoop (readBy_schemaParts t) ⟨cstr "", []⟩
    (by omega : l₃.length < l.length) h
  have hrun : runParts (schemaParts t) ⟨cstr "", []⟩ = some ⟨loadedName t, loadedColumns t⟩ := rfl
  have hfirst : schemaStart l = (.string (cstr "schema"), l₁) := by
    rw [schemaStart, hbrace]
    exact hkey
  have hnested : schemaLoop (l.length + 1) ⟨cstr "", []⟩ (.string (cstr "schema")) l₁ =
      schemaLoop l.length ⟨cstr "", []⟩ (jsonParseToken l₃).1 (jsonParseToken l₃).2 := by
    rw [schemaLoop, hcolon]
    dsimp only
    rw [if_pos rfl, hstart]
  have hadd : addSchema db ⟨loadedName t, loadedColumns t⟩ = loadSchema db t := by
    have hpos : 0 < (loadedColumns t).length := by
      rw [loadedColumns, List.length_map]
      exact t.columns_pos
    unfold addSchema loadSchema
    simp only [hpos, and_true]
  rw [hrun, ← hnested] at hloop
  rw [← hadd]
  refine settles_tableSchema_of db ?_
  rw [hfirst]
  exact hloop

/-- A table is not added if its name is taken or the database is full. -/
theorem loadSchema_eq_none {db : Database} {t : Table}
    (h : ¬((∀ t' ∈ db.tables, t'.name ≠ loadedName t) ∧ db.tableCount < maxTables)) :
    loadSchema db t = none := by
  unfold loadSchema
  split_ifs
  · rcases dbAddTable_cases db (some (loadedName t)) (some (loadedColumns t)) with
      ⟨hne, -⟩ | ⟨n, l, named, hpos, hle, hn, -, -, hfresh, -, htables⟩
    · generalize dbAddTable db (some (loadedName t)) (some (loadedColumns t)) = r at hne
      obtain ⟨code, db'⟩ := r
      cases code
      case success => exact absurd rfl hne
      all_goals rfl
    · obtain rfl := Option.some.inj hn
      refine absurd ⟨hfresh, ?_⟩ h
      have hfits := (dbAddTable db (some (loadedName t)) (some (loadedColumns t))).2.tables_le
      rw [htables, List.length_append] at hfits
      exact hfits
  · rfl

/-! ### The table -/

/-- The part of a table that is written. -/
def Table.exported (t : Table) (includeData : Bool) : Table :=
  if includeData then t else { t with records := [] }

theorem Table.Clean.exported {t : Table} (ht : t.Clean) (includeData : Bool) :
    (t.exported includeData).Clean := by
  cases includeData with
  | true => exact ht
  | false =>
    show Table.Clean { t with records := [] }
    exact ⟨⟨ht.plain.named, ht.plain.name, ht.plain.columns⟩, ht.names_nodup, ht.types,
      ht.constraints, ht.key, List.nodup_nil, (by decide : (0 : Int) ≤ maxRecordsPerTable), nofun⟩

/-- The values of a clean record are written without NULs. -/
theorem Table.Clean.printable {t : Table} (ht : t.Clean) :
    ∀ r ∈ t.records, r.Printable p t.columns := by
  intro r hr x hx
  have hclean := ht.records r hr
  refine ⟨ht.timesConvert hr x hx, ?_⟩
  rw [fieldPairs_eq_zip hclean.length_eq] at hx
  obtain ⟨c, hc, htype⟩ := exists_type_of_tags hclean.types (List.of_mem_zip hx).2
  have hcases := ht.types c hc
  rw [htype] at hcases
  unfold fieldText
  rcases hcases with hty | hty | hty
  · rw [hty]
    exact zero_notMem_decimal _
  · rw [hty]
    dsimp only
    split_ifs <;> decide
  · rw [hty]
    simpa using (escaped x.2.value.stringValue).nulFree

/-- A clean table can be added to every database with room for it in which its name is free. -/
theorem Table.Clean.readyFor {t : Table} (ht : t.Clean) {db : Database}
    (hfresh : ∀ t' ∈ db.tables, t'.name ≠ t.name) : t.ReadyFor db where
  named := ht.plain.named
  fresh := by rwa [ht.plain.loadedName_eq]
  readable r hr := by
    have hclean := ht.records r hr
    refine (readable_iff_of_plain ht.plain.columns hclean.length_eq).mpr fun f hf => ?_
    -- no value has a floating-point tag
    obtain ⟨c, hc, hcf⟩ := exists_type_of_tags hclean.types hf
    rcases ht.types c hc with hty | hty | hty <;> rw [hcf] at hty <;>
      exact ⟨fun hf => by simp [hf] at hty, fun hf => by simp [hf] at hty⟩

/-! ### Reading the table -/

/-- The table is added as `loadTable` says. -/
theorem jsonToTable_of_reads {t : Table} {includeData : Bool} {text : CString} {s s' : Store}
    (h : Reads jsonParseToken .none (tableObjectTokens p t includeData) text.bytes [])
    (hload : loadTable p s (t.exported includeData) = some s') :
    jsonToTable p s (some text) = (some s.db.tableCount, s') := by
  obtain ⟨db, hdb, hload⟩ := Option.bind_eq_some_iff.mp hload
  have hschema := settles_bracedSchema s.db t h
  have hsame : loadSchema s.db t = loadSchema s.db (t.exported includeData) := by
    cases includeData <;> rfl
  rw [hsame, hdb] at hschema
  generalize hread : jsonParseTableSchema s.db text.bytes = r at hschema
  cases hschema with
  | @done _ l₁ h =>
    have hkept : jsonParseTableSchemaKept s.db text.bytes = (db, .ok l₁) :=
      dropFailed_eq_ok.mp ((jsonParseTableSchema_eq _ _).symm.trans hread)
    obtain ⟨ts, hts, -⟩ := schemaKept_ok_iff.mp hkept
    have hcount : db.tableCount - 1 = s.db.tableCount := by
      have hlength := hts.length
      unfold Database.tableCount
      omega
    rw [hcount] at hload
    rw [jsonToTable, hkept]
    dsimp only
    rw [hcount]
    obtain ⟨t', -, hrecords⟩ := Option.bind_eq_some_iff.mp hload
    cases includeData with
    | false =>
      -- behind the schema there is only the brace
      obtain rfl : { s with db } = s' := Option.some.inj hrecords
      obtain ⟨l₂, hend, -⟩ := h.head (by simp)
      rw [importRecords, hend]
    | true =>
      obtain ⟨l₂, hcomma, h⟩ := h.head (by simp)
      obtain ⟨l₃, hkey, h⟩ := h.head (by simp)
      obtain ⟨l₄, hcolon, h⟩ := h.head (by simp)
      have harray : Reads jsonParseToken .none (.arrayStart ::
          (arrayTail (t.records.map (recordTokens p t.columns)) ++ [.objectEnd])) l₄ [] := h
      have hloaded : ((db.tables[s.db.tableCount]?).bind fun t' => t.records.foldlM
          (loadRecord p s.db.tableCount t'.columns t.columns) { s with db }) = some s' := hload
      have hsettles := settles_tableRecords p s.db.tableCount t.records { s with db } harray
      rw [hloaded] at hsettles
      generalize hread' : jsonParseTableRecords p s.db.tableCount { s with db } l₄ = r at hsettles
      cases hsettles with
      | @done _ l₅ _ =>
        have hkept' : jsonParseTableRecordsKept p s.db.tableCount { s with db } l₄ = (s', .ok l₅) :=
          dropFailed_eq_ok.mp ((jsonParseTableRecords_eq _ _ _ _).symm.trans hread')
        rw [importRecords, hcomma]
        dsimp only
        rw [hkey]
        dsimp only
        rw [if_pos rfl, hcolon]
        dsimp only
        rw [hkept']

/-- Nothing is added if the schema is refused. -/
theorem jsonToTable_refused {t : Table} {includeData : Bool} {text : CString} {s : Store}
    (h : Reads jsonParseToken .none (tableObjectTokens p t includeData) text.bytes [])
    (hnone : loadSchema s.db t = none) : (jsonToTable p s (some text)).1 = none ∧
      (jsonToTable p s (some text)).2.db.tables = s.db.tables := by
  have hschema := settles_bracedSchema s.db t h
  rw [hnone, jsonParseTableSchema_eq] at hschema
  obtain ⟨db, r, hkept⟩ : ∃ db r, jsonParseTableSchemaKept s.db text.bytes = (db, r) := ⟨_, _, rfl⟩
  rw [hkept] at hschema
  cases r with
  | ok l => cases hschema
  | error e =>
    rw [jsonToTable, hkept]
    exact ⟨rfl, schemaKept_error hkept⟩

/-- **A table comes back from its text**: what is written of a clean table, in either layout, is
added to any database whose tables have other names and that has room, and to no other. -/
theorem table_text_returns (hp : p.Faithful) {t : Table} (ht : t.Clean)
    (options : Option JsonTableOptions) (s : Store) :
    ((∀ t' ∈ s.db.tables, t'.name ≠ t.name) ∧ s.db.tableCount < maxTables →
      ∃ s' t', jsonToTable p s (tableToJson p (some t) options) = (some s.db.tableCount, s') ∧
        s'.db.tables = s.db.tables ++ [t'] ∧
        SameTable (t.exported ((options.map (·.includeData)).getD false)) t') ∧
    (¬((∀ t' ∈ s.db.tables, t'.name ≠ t.name) ∧ s.db.tableCount < maxTables) →
      (jsonToTable p s (tableToJson p (some t) options)).1 = none ∧
      (jsonToTable p s (tableToJson p (some t) options)).2.db.tables = s.db.tables) := by
  have hkeys : ∀ c ∈ t.columns, IsKey c.name := fun c hc =>
    .inl (quotable_of_plain (ht.plain.columns c hc))
  obtain ⟨text, htext, hreads⟩ :=
    tableToJson_reads hp options fun _ => ⟨fun _ => hkeys, ht.printable⟩
  rw [htext]
  generalize (options.map (·.includeData)).getD false = includeData at hreads ⊢
  constructor
  · rintro ⟨hfresh, hroom⟩
    have hclean := ht.exported includeData
    have hname : (t.exported includeData).name = t.name := by
      cases includeData <;> rfl
    have hready : (t.exported includeData).ReadyFor s.db := hclean.readyFor (by rwa [hname])
    obtain ⟨s', hload, htables, -⟩ := loadTable_eq (p := p) hready hroom hclean.count_le
    exact ⟨s', _, jsonToTable_of_reads hreads hload, htables, sameTable_loadedTable hclean⟩
  · intro h
    rw [← ht.plain.loadedName_eq] at h
    exact jsonToTable_refused hreads (loadSchema_eq_none h)

/-- The people move to an empty database, in the compact layout and with their data. -/
theorem table_text_returns_people : ∃ t ∈ peopleStore.db.tables, ∃ s' t',
    jsonToTable .epoch ⟨dbCreate, 0⟩ (tableToJson .epoch (some t) (some ⟨⟨false⟩, true⟩)) =
      (some 0, s') ∧ s'.db.tables = [t'] ∧ SameTable t t' := by
  obtain ⟨t, ht⟩ : ∃ t, peopleStore.db.tables[0]? = some t :=
    Option.isSome_iff_exists.mp (by decide)
  have hmem := List.mem_of_getElem? ht
  have hclean : t.Clean := (by decide : peopleStore.db.Clean).tables t hmem
  obtain ⟨s', t', hread, htables, hsame⟩ := (table_text_returns Platform.epoch_faithful hclean
    (some ⟨⟨false⟩, true⟩) ⟨dbCreate, 0⟩).1 ⟨nofun, by decide⟩
  exact ⟨t, hmem, s', t', hread, htables, hsame⟩

end Luminix
